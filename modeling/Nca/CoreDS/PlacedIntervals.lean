import Nca.CoreDS.IntervalEndpoints
import Nca.CoreDS.IntervalRuns
import Mathlib.Data.Set.Image

/-!
Ends of intervals that are placed on the integers. `+ 1` and `- 1` go to the next integer where it
is the place of an end, and stay where they are elsewhere; then the operations on sets of intervals
are those on their places.
-/

namespace Nca.CoreDS
open Lib Python

/-- Ends with places on the integers, on which they take the steps that they can. -/
class PlacedEndpoint (α : Type) extends Endpoint α where
  place : α → Int
  place_lt : ∀ a b : α, place a < place b ↔ a < b
  plusOne_next : ∀ a b : α, place b = place a + 1 → plusOne a = b
  plusOne_last : ∀ a : α, (∀ b, place b ≠ place a + 1) → plusOne a = a
  minusOne_next : ∀ a b : α, place b = place a - 1 → minusOne a = b
  minusOne_first : ∀ a : α, (∀ b, place b ≠ place a - 1) → minusOne a = a

export PlacedEndpoint (place)

variable {α : Type} [PlacedEndpoint α] {a b : α}

theorem place_lt : place a < place b ↔ a < b := PlacedEndpoint.place_lt a b

theorem place_le : place a ≤ place b ↔ a ≤ b := by
  rw [← not_lt, ← not_lt, place_lt]

theorem place_inj : place a = place b ↔ a = b := by
  constructor
  · intro same
    apply le_antisymm
    · exact place_le.mp (by omega)
    · exact place_le.mp (by omega)
  · exact fun same => congrArg place same

theorem place_max : place (max a b) = max (place a) (place b) := by
  rcases le_total a b with below | above
  · rw [max_eq_right below, max_eq_right (place_le.mpr below)]
  · rw [max_eq_left above, max_eq_left (place_le.mpr above)]

theorem place_min : place (min a b) = min (place a) (place b) := by
  rcases le_total a b with below | above
  · rw [min_eq_left below, min_eq_left (place_le.mpr below)]
  · rw [min_eq_right above, min_eq_right (place_le.mpr above)]

/-- A step back that stays where it is has no end before it, so nothing is in between. -/
theorem lt_minusOne : a < minusOne b ↔ place a < place b - 1 := by
  by_cases next : ∃ c : α, place c = place b - 1
  · obtain ⟨c, here⟩ := next
    rw [PlacedEndpoint.minusOne_next b c here, ← here]
    exact place_lt.symm
  · have none : ∀ c : α, place c ≠ place b - 1 := not_exists.mp next
    have other := none a
    rw [PlacedEndpoint.minusOne_first b none, ← place_lt]
    omega

theorem plusOne_lt : plusOne a < b ↔ place a + 1 < place b := by
  by_cases next : ∃ c : α, place c = place a + 1
  · obtain ⟨c, here⟩ := next
    rw [PlacedEndpoint.plusOne_next a c here, ← here]
    exact place_lt.symm
  · have none : ∀ c : α, place c ≠ place a + 1 := not_exists.mp next
    have other := none b
    rw [PlacedEndpoint.plusOne_last a none, ← place_lt]
    omega

theorem minusOne_le : minusOne a ≤ b ↔ place a - 1 ≤ place b := by
  rw [← not_lt, ← not_lt, lt_minusOne]

theorem le_plusOne : a ≤ plusOne b ↔ place a ≤ place b + 1 := by
  rw [← not_lt, ← not_lt, plusOne_lt]

theorem eq_plusOne (above : b < a) : a = plusOne b ↔ place a = place b + 1 := by
  constructor
  · rintro rfl
    by_contra other
    have none : ∀ c : α, place c ≠ place b + 1 := by
      intro c here
      rw [PlacedEndpoint.plusOne_next b c here] at other
      exact other here
    rw [PlacedEndpoint.plusOne_last b none] at above
    exact lt_irrefl b above
  · exact fun here => (PlacedEndpoint.plusOne_next b a here).symm

namespace IntervalOf

/-- The interval of places. -/
def places (i : IntervalOf α) : Interval := ⟨place i.start, place i.end_⟩

/-- An interval without a gap: every integer in it is the place of an end. -/
def Solid (i : IntervalOf α) : Prop := ∀ n, n ∈ i.places → ∃ a : α, place a = n

variable {i j : IntervalOf α}

theorem places_overlaps : i.places.overlaps j.places = i.overlaps j := by
  unfold Interval.overlaps overlaps places
  simp only [ge_iff_le, place_le]

theorem places_isSubset : i.places.isSubset j.places = i.isSubset j := by
  unfold Interval.isSubset isSubset places
  simp only [ge_iff_le, place_le]

theorem places_touches : i.places.touches j.places = i.touches j := by
  unfold Interval.touches touches places
  simp only [gt_iff_lt, place_lt]
  split
  · rename_i above
    exact decide_eq_decide.mpr (eq_plusOne above).symm
  · split
    · rename_i above
      exact decide_eq_decide.mpr (eq_plusOne above).symm
    · rfl

theorem places_and : (i.and j).map places = i.places.and j.places := by
  unfold Interval.and and places
  dsimp only
  simp only [← place_max, ← place_min, place_lt]
  split
  · rfl
  · rfl

/-- The step back from the first end of a hole stays within a solid interval around it. -/
theorem place_minusOne (solid : i.Solid) (after : i.start < a) (inside : place a - 1 ≤ place i.end_) :
    place (minusOne a) = place a - 1 := by
  have before : place i.start < place a := place_lt.mpr after
  have within : place a - 1 ∈ i.places := by
    show place i.start ≤ place a - 1 ∧ place a - 1 ≤ place i.end_
    omega
  obtain ⟨c, here⟩ := solid _ within
  rw [PlacedEndpoint.minusOne_next a c here]
  exact here

theorem place_plusOne (solid : i.Solid) (before : a < i.end_) (inside : place i.start ≤ place a + 1) :
    place (plusOne a) = place a + 1 := by
  have after : place a < place i.end_ := place_lt.mpr before
  have within : place a + 1 ∈ i.places := by
    show place i.start ≤ place a + 1 ∧ place a + 1 ≤ place i.end_
    omega
  obtain ⟨c, here⟩ := solid _ within
  rw [PlacedEndpoint.plusOne_next a c here]
  exact here

theorem places_sub (solid : i.Solid) : (i.sub j).map places = i.places.sub j.places := by
  unfold Interval.sub sub
  rw [places_overlaps, places_isSubset]
  split
  · rfl
  · rename_i meet
    split
    · rfl
    · rename_i wider
      simp only [overlaps, isSubset, ge_iff_le, ← place_le, Bool.not_eq_true', decide_eq_false_iff_not,
        not_not, decide_eq_true_eq] at meet wider
      have before : i.start < j.start → place (minusOne j.start) = place j.start - 1 :=
        fun after => place_minusOne solid after (by omega)
      have after : j.end_ < i.end_ → place (plusOne j.end_) = place j.end_ + 1 :=
        fun before => place_plusOne solid before (by omega)
      simp only [places, gt_iff_lt, place_lt]
      split
      · rename_i middle
        simp only [List.map_cons, List.map_nil, places, before middle.1, after middle.2]
      · split
        · rename_i first
          simp only [List.map_cons, List.map_nil, places, place_min, before first]
        · rename_i last
          have last : j.end_ < i.end_ := by
            rw [← place_lt] at last ⊢
            omega
          simp only [List.map_cons, List.map_nil, places, place_max, after last]

end IntervalOf

namespace CanonicalIntervalSetOf
open IntervalOf

/-- The set of the intervals of places. -/
def places (s : CanonicalIntervalSetOf α) : CanonicalIntervalSet := ⟨s.interval_set.map IntervalOf.places⟩

variable {s t : CanonicalIntervalSetOf α} {i hole : IntervalOf α}

theorem places_findIntervalLeftLoop (xs : List (IntervalOf α)) (fuel low high : Nat) :
    CanonicalIntervalSet.findIntervalLeftLoop (xs.map IntervalOf.places) i.places fuel low high =
      findIntervalLeftLoop xs i fuel low high := by
  induction fuel generalizing low high with
  | zero => rfl
  | succ fuel ih =>
    unfold CanonicalIntervalSet.findIntervalLeftLoop findIntervalLeftLoop
    simp only [item_map, List.length_map, ih]
    split
    · rfl
    · cases item xs (((low + high) / 2 : Nat) : Int) with
      | error e => rfl
      | ok at_mid =>
        simp only [Except.map, ok_bind, IntervalOf.places, ← lt_minusOne]
        split
        · split
          · rfl
          · cases item xs ((((low + high) / 2 : Nat) : Int) + 1) with
            | error e => rfl
            | ok next =>
              simp only [ok_bind, ge_iff_le, ← minusOne_le]
        · rfl

theorem places_bool : s.places.bool = s.bool := by
  unfold CanonicalIntervalSet.bool bool places
  rw [List.isEmpty_map]

theorem places_len : s.places.len = s.len := List.length_map _

theorem places_findIntervalLeft : s.places.findIntervalLeft i.places = s.findIntervalLeft i := by
  unfold CanonicalIntervalSet.findIntervalLeft findIntervalLeft
  rw [places_bool, places_len]
  unfold places
  simp only [places_findIntervalLeftLoop, item_map]
  split
  · rfl
  · cases findIntervalLeftLoop s.interval_set i (s.len + 1) 0 s.len with
    | error e => rfl
    | ok found =>
      cases found with
      | inl mid => rfl
      | inr low =>
        simp only [ok_bind]
        cases item s.interval_set ((if low = s.len then low - 1 else low : Nat) : Int) with
        | error e => rfl
        | ok at_low => simp only [Except.map, ok_bind, IntervalOf.places, ge_iff_le, ← minusOne_le]

theorem places_findIntervalRightLoop (xs : List (IntervalOf α)) (fuel low high : Nat) :
    CanonicalIntervalSet.findIntervalRightLoop (xs.map IntervalOf.places) i.places fuel low high =
      findIntervalRightLoop xs i fuel low high := by
  induction fuel generalizing low high with
  | zero => rfl
  | succ fuel ih =>
    unfold CanonicalIntervalSet.findIntervalRightLoop findIntervalRightLoop
    simp only [item_map, ih]
    split
    · rfl
    · cases item xs (((low + high) / 2 : Nat) : Int) with
      | error e => rfl
      | ok at_mid =>
        simp only [Except.map, ok_bind, IntervalOf.places, gt_iff_lt, ← plusOne_lt]
        split
        · split
          · rfl
          · cases item xs ((((low + high) / 2 : Nat) : Int) - 1) with
            | error e => rfl
            | ok previous => simp only [ok_bind, ← le_plusOne]
        · rfl

theorem places_findIntervalRight : s.places.findIntervalRight i.places = s.findIntervalRight i := by
  unfold CanonicalIntervalSet.findIntervalRight findIntervalRight
  rw [places_bool, places_len]
  unfold places
  simp only [places_findIntervalRightLoop, item_map]
  split
  · rfl
  · cases findIntervalRightLoop s.interval_set i (s.len + 1) 0 s.len with
    | error e => rfl
    | ok found =>
      cases found with
      | inl mid => rfl
      | inr low =>
        simp only [ok_bind]
        cases item s.interval_set ((if low = s.len then low - 1 else low : Nat) : Int) with
        | error e => rfl
        | ok at_low => simp only [Except.map, ok_bind, IntervalOf.places, ← le_plusOne]

/-- What is spliced in where the searches meet neighbours. -/
theorem places_insert (xs : List (IntervalOf α)) (k : Nat) :
    (Python.insert xs k i).map IntervalOf.places = Python.insert (xs.map IntervalOf.places) k i.places := by
  simp [Python.insert, List.map_take, List.map_drop]

theorem places_delSlice (xs : List (IntervalOf α)) (low high : Nat) :
    (delSlice xs low high).map IntervalOf.places = delSlice (xs.map IntervalOf.places) low high := by
  simp [delSlice, List.map_take, List.map_drop]

theorem pure_places {xs : List Interval} (same : xs = s.interval_set.map IntervalOf.places) :
    (pure ⟨xs⟩ : Except Failure CanonicalIntervalSet) = (pure s : Except Failure _).map places := by
  rw [same]
  rfl

theorem places_addInterval : s.places.addInterval i.places = (s.addInterval i).map places := by
  unfold CanonicalIntervalSet.addInterval addInterval
  rw [places_bool, places_len, places_findIntervalLeft, places_findIntervalRight]
  unfold places
  simp only [item_map]
  split
  · exact pure_places (by rw [List.map_append]; rfl)
  · cases s.findIntervalLeft i with
    | error e => rfl
    | ok left =>
      cases s.findIntervalRight i with
      | error e => rfl
      | ok right =>
        simp only [ok_bind]
        split
        · exact pure_places (places_insert _ _).symm
        · split
          · exact pure_places (places_insert _ _).symm
          · split
            · exact pure_places (by rw [List.map_append]; rfl)
            · cases item s.interval_set (left + 1) with
              | error e => rfl
              | ok at_left =>
                cases item s.interval_set (if right ≥ 0 then right - 1 else (s.len : Int) - 1) with
                | error e => rfl
                | ok at_right =>
                  apply pure_places
                  simp only [places_overlaps, places_touches]
                  rw [places_insert, places_delSlice]
                  congr 1
                  simp only [IntervalOf.places, apply_ite place, place_min, place_max]

theorem places_and : (s.and t).places = s.places.and t.places := by
  unfold CanonicalIntervalSet.and and places
  simp only [List.map_flatMap, List.flatMap_map, IntervalOf.places_and]

theorem places_addHole (solid : ∀ i ∈ s.interval_set, i.Solid) :
    (s.addHole hole).places = s.places.addHole hole.places := by
  unfold CanonicalIntervalSet.addHole addHole places
  simp only [List.map_flatMap, List.flatMap_map]
  exact congrArg _ (List.flatMap_congr fun i listed => places_sub (solid i listed))

end CanonicalIntervalSetOf

section Sets

instance : Membership α (IntervalOf α) := ⟨fun i a => i.start ≤ a ∧ a ≤ i.end_⟩

instance : Membership α (CanonicalIntervalSetOf α) := ⟨fun s a => ∃ i ∈ s.interval_set, a ∈ i⟩

namespace IntervalOf

variable {i : IntervalOf α}

theorem mem_places : place a ∈ i.places ↔ a ∈ i := and_congr place_le place_le

theorem solid_places (solid : i.Solid) : {n | n ∈ i.places} = place '' {a | a ∈ i} := by
  ext n
  constructor
  · intro inside
    obtain ⟨a, rfl⟩ := solid n inside
    exact ⟨a, mem_places.mp inside, rfl⟩
  · intro ⟨a, inside, here⟩
    rw [← here]
    exact mem_places.mpr inside

end IntervalOf

namespace CanonicalIntervalSetOf
open IntervalOf

variable {s t : CanonicalIntervalSetOf α} {A B : Set α} {i hole : IntervalOf α}

theorem mem_places : place a ∈ s.places ↔ a ∈ s := by
  constructor
  · intro ⟨_, among, inside⟩
    obtain ⟨i, listed, rfl⟩ := List.mem_map.mp among
    exact ⟨i, listed, IntervalOf.mem_places.mp inside⟩
  · intro ⟨i, listed, inside⟩
    exact ⟨i.places, List.mem_map_of_mem listed, IntervalOf.mem_places.mpr inside⟩

/-- The places are in canonical form, and they are those of the ends of the set. -/
def Holds (s : CanonicalIntervalSetOf α) (A : Set α) : Prop := s.places.Represents (place '' A)

theorem holds_mem (holds : Holds s A) : a ∈ s ↔ a ∈ A := by
  rw [← mem_places, holds.2]
  constructor
  · intro ⟨b, inside, here⟩
    rw [← place_inj.mp here]
    exact inside
  · exact fun inside => ⟨a, inside, rfl⟩

theorem holds_solid (holds : Holds s A) : ∀ i ∈ s.interval_set, i.Solid := by
  intro i listed n inside
  obtain ⟨a, _, here⟩ := (holds.2 n).mp ⟨i.places, List.mem_map_of_mem listed, inside⟩
  exact ⟨a, here⟩

theorem holds_proper (holds : Holds s A) : ∀ i ∈ s.interval_set, i.start ≤ i.end_ :=
  fun i listed => place_le.mp (holds.1.proper i.places (List.mem_map_of_mem listed))

theorem holds_empty : Holds ({} : CanonicalIntervalSetOf α) ∅ := by
  apply And.intro CanonicalIntervalSet.canonical_empty
  intro n
  rw [Set.image_empty]
  exact iff_of_false CanonicalIntervalSet.not_mem_empty id

theorem holds_addInterval (holds : Holds s A) (proper : i.start ≤ i.end_) (solid : i.Solid) :
    Returns (s.addInterval i) (Holds · (A ∪ {a | a ∈ i})) := by
  obtain ⟨r, added, represents⟩ := CanonicalIntervalSet.represents_addInterval holds
    (show i.places.Proper from place_le.mpr proper)
  rw [places_addInterval] at added
  cases found : s.addInterval i with
  | error e =>
    rw [found] at added
    cases added
  | ok r' =>
    rw [found] at added
    obtain rfl := Except.ok.inj added
    apply returns_ok
    show r'.places.Represents _
    rw [Set.image_union, ← solid_places solid]
    exact represents

theorem holds_singleton (proper : i.start ≤ i.end_) (solid : i.Solid) : Holds ⟨[i]⟩ {a | a ∈ i} := by
  obtain ⟨r, added, holds⟩ := holds_addInterval holds_empty proper solid
  rw [Set.empty_union] at holds
  obtain rfl : ⟨[i]⟩ = r := Except.ok.inj added
  exact holds

theorem holds_addHole (holds : Holds s A) (proper : hole.start ≤ hole.end_) :
    Holds (s.addHole hole) (A \ {a | a ∈ hole}) := by
  have represents := CanonicalIntervalSet.represents_addHole holds
    (Or.inl (show hole.places.Proper from place_le.mpr proper))
  rw [← places_addHole (holds_solid holds)] at represents
  have out : place '' A \ {n | n ∈ hole.places} = place '' (A \ {a | a ∈ hole}) := by
    ext n
    constructor
    · intro ⟨⟨a, inside, here⟩, out⟩
      rw [← here] at out
      exact ⟨a, ⟨inside, mt IntervalOf.mem_places.mpr out⟩, here⟩
    · intro ⟨a, ⟨inside, out⟩, here⟩
      rw [← here]
      exact ⟨⟨a, inside, rfl⟩, mt IntervalOf.mem_places.mp out⟩
  rwa [out] at represents

theorem holds_and (left : Holds s A) (right : Holds t B) : Holds (s.and t) (A ∩ B) := by
  have represents := CanonicalIntervalSet.represents_and left right
  rw [← places_and, ← Set.image_inter fun _ _ => place_inj.mp] at represents
  exact represents

/-- Adding the intervals of a list one by one. -/
theorem holds_addIntervals {is : List (IntervalOf α)} (holds : Holds s A)
    (each : ∀ i ∈ is, i.start ≤ i.end_ ∧ i.Solid) :
    Returns (is.foldlM addInterval s) (Holds · (A ∪ {a | ∃ i ∈ is, a ∈ i})) := by
  induction is generalizing s A with
  | nil =>
    apply returns_pure
    simpa using holds
  | cons i rest ih =>
    obtain ⟨first, others⟩ := List.forall_mem_cons.mp each
    rw [List.foldlM_cons]
    apply returns_bind (holds_addInterval holds first.1 first.2)
    intro r holds'
    apply returns_mono (ih holds' others)
    intro r' holds''
    rw [Set.union_assoc] at holds''
    simpa only [List.mem_cons, exists_eq_or_imp, Set.ofPred_or] using holds''

theorem holds_addHoles {holes : List (IntervalOf α)} (holds : Holds s A)
    (each : ∀ hole ∈ holes, hole.start ≤ hole.end_) :
    Holds (holes.foldl addHole s) (A \ {a | ∃ hole ∈ holes, a ∈ hole}) := by
  induction holes generalizing s A with
  | nil => simpa using holds
  | cons hole rest ih =>
    obtain ⟨first, others⟩ := List.forall_mem_cons.mp each
    have holds' := ih (holds_addHole holds first) others
    rw [Set.sdiff_sdiff] at holds'
    rw [List.foldl_cons]
    simpa only [List.mem_cons, exists_eq_or_imp, Set.ofPred_or] using holds'

theorem holds_or (left : Holds s A) (right : Holds t B) : Returns (s.or t) (Holds · (A ∪ B)) := by
  have others : {a | ∃ i ∈ t.interval_set, a ∈ i} = B := Set.ext fun _ => holds_mem right
  rw [← others]
  exact holds_addIntervals left fun i listed => ⟨holds_proper right i listed, holds_solid right i listed⟩

theorem holds_sub (left : Holds s A) (right : Holds t B) : Holds (s.sub t) (A \ B) := by
  have others : {a | ∃ i ∈ t.interval_set, a ∈ i} = B := Set.ext fun _ => holds_mem right
  rw [← others]
  exact holds_addHoles left (holds_proper right)

theorem holds_eq (left : Holds s A) (right : Holds t B) : s = t ↔ A = B := by
  have intervals_inj : Function.Injective (IntervalOf.places : IntervalOf α → Interval) := by
    intro i j same
    obtain ⟨low, high⟩ := Interval.mk.inj same
    cases i
    cases j
    exact congrArg₂ _ (place_inj.mp low) (place_inj.mp high)
  have sets := CanonicalIntervalSet.represents_eq left right
  rw [Set.image_eq_image fun _ _ => place_inj.mp] at sets
  rw [← sets]
  constructor
  · exact fun same => congrArg places same
  · intro same
    have same := intervals_inj.list_map (CanonicalIntervalSet.mk.inj same)
    cases s
    cases t
    exact congrArg _ same

/-- `self |= self` reads the list that it extends; adding an interval that is there keeps it. -/
theorem addInterval_present (holds : Holds s A) (listed : i ∈ s.interval_set) :
    s.addInterval i = .ok s := by
  obtain ⟨r, added, holds'⟩ := holds_addInterval holds (holds_proper holds i listed)
    (holds_solid holds i listed)
  have inside : {a | a ∈ i} ⊆ A := fun a inside => (holds_mem holds).mp ⟨i, listed, inside⟩
  rw [Set.union_eq_self_of_subset_right inside] at holds'
  rw [added, (holds_eq holds' holds).mpr rfl]

end CanonicalIntervalSetOf
end Sets
end Nca.CoreDS
