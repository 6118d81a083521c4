import Nca.CoreDS.CanonicalIntervalSet
import Mathlib.Data.List.Pairwise
import Mathlib.Tactic.Common

/-!
Interval sets denote sets of integers. Every operation keeps the canonical form, denotes its set
operation, and ends without an error; in canonical form, equal denotations mean equal lists.
-/

namespace Nca.CoreDS
open Lib Python

instance : Membership Int Interval := ⟨fun a x => a.start ≤ x ∧ x ≤ a.end_⟩
instance : Membership Int CanonicalIntervalSet := ⟨fun s x => ∃ a ∈ s.interval_set, x ∈ a⟩

namespace Interval

theorem mem_iff {x : Int} {a : Interval} : x ∈ a ↔ a.start ≤ x ∧ x ≤ a.end_ := Iff.rfl

/-- The interval has an element. -/
def Proper (a : Interval) : Prop := a.start ≤ a.end_

/-- `a` ends before `b` starts, with an integer between them. -/
def Before (a b : Interval) : Prop := a.end_ + 1 < b.start

theorem start_mem {a : Interval} (proper : a.Proper) : a.start ∈ a := ⟨Int.le_refl _, proper⟩

theorem end_mem {a : Interval} (proper : a.Proper) : a.end_ ∈ a := ⟨proper, Int.le_refl _⟩

theorem before_disjoint {a b : Interval} (before : Before a b) {x : Int} (left : x ∈ a) :
    x ∉ b := by
  intro right
  rw [mem_iff] at left right
  rw [Before] at before
  omega

theorem mem_and {a b : Interval} {x : Int} :
    (∃ c ∈ a.and b, x ∈ c) ↔ x ∈ a ∧ x ∈ b := by
  unfold Interval.and
  simp only [mem_iff]
  split
  · simp only [List.not_mem_nil, false_and, exists_false, false_iff]
    omega
  · simp only [List.mem_singleton, exists_eq_left]
    omega

theorem and_within {a b c : Interval} (h : c ∈ a.and b) :
    c.Proper ∧ a.start ≤ c.start ∧ c.end_ ≤ a.end_ ∧ b.start ≤ c.start ∧ c.end_ ≤ b.end_ := by
  unfold Interval.and at h
  dsimp only at h
  split at h
  · cases h
  · obtain rfl := List.mem_singleton.mp h
    unfold Proper
    dsimp only
    omega

theorem and_pairwise (a b : Interval) : (a.and b).Pairwise Before := by
  unfold Interval.and
  dsimp only
  split <;> simp

theorem mem_sub {a b : Interval} {x : Int} (proper : b.Proper) :
    (∃ c ∈ a.sub b, x ∈ c) ↔ x ∈ a ∧ x ∉ b := by
  unfold Interval.sub overlaps isSubset
  unfold Proper at proper
  simp only [mem_iff]
  split
  · rename_i apart
    simp only [Bool.not_eq_true', decide_eq_false_iff_not] at apart
    simp only [List.mem_singleton, exists_eq_left]
    omega
  · rename_i meet
    simp only [Bool.not_eq_true', decide_eq_false_iff_not, not_not] at meet
    split
    · rename_i within
      simp only [decide_eq_true_eq] at within
      simp only [List.not_mem_nil, false_and, exists_false, false_iff]
      omega
    · rename_i wider
      simp only [decide_eq_true_eq] at wider
      split
      · simp only [List.mem_cons, List.not_mem_nil, or_false, exists_eq_or_imp, exists_eq_left]
        omega
      · split <;> simp only [List.mem_singleton, exists_eq_left] <;> omega

theorem sub_within {a b c : Interval} (whole : a.Proper) (h : c ∈ a.sub b) :
    c.Proper ∧ a.start ≤ c.start ∧ c.end_ ≤ a.end_ := by
  unfold Interval.sub overlaps isSubset at h
  unfold Proper at whole ⊢
  split at h
  · obtain rfl := List.mem_singleton.mp h
    omega
  · rename_i meet
    simp only [Bool.not_eq_true', decide_eq_false_iff_not, not_not] at meet
    split at h
    · cases h
    · rename_i wider
      simp only [decide_eq_true_eq] at wider
      split at h
      · simp only [List.mem_cons, List.not_mem_nil, or_false] at h
        rcases h with rfl | rfl <;> dsimp only <;> omega
      · split at h
        all_goals
          obtain rfl := List.mem_singleton.mp h
          dsimp only
          omega

theorem sub_pairwise {a b : Interval} (proper : b.Proper) : (a.sub b).Pairwise Before := by
  unfold Interval.sub
  unfold Proper at proper
  split
  · simp
  · split
    · simp
    · split
      · simp only [List.pairwise_cons, List.mem_singleton, forall_eq, List.not_mem_nil,
          false_implies, implies_true, List.Pairwise.nil, and_true, Before]
        omega
      · split <;> simp

end Interval

namespace CanonicalIntervalSet
open CoreDS.Interval

theorem mem_iff {x : Int} {s : CanonicalIntervalSet} :
    x ∈ s ↔ ∃ a ∈ s.interval_set, x ∈ a := Iff.rfl

/-- Sorted intervals, each with an element, with an integer missing between neighbours. -/
structure Canonical (s : CanonicalIntervalSet) : Prop where
  proper : ∀ a ∈ s.interval_set, a.Proper
  sorted : s.interval_set.Pairwise Before

theorem canonical_empty : Canonical {} := ⟨by simp, .nil⟩

theorem not_mem_empty {x : Int} : x ∉ ({} : CanonicalIntervalSet) := by
  simp [mem_iff]

theorem canonical_singleton {a : Interval} (proper : a.Proper) : Canonical ⟨[a]⟩ :=
  ⟨by simpa using proper, by simp⟩

theorem bool_iff {s : CanonicalIntervalSet} (canonical : Canonical s) :
    s.bool = true ↔ ∃ x, x ∈ s := by
  obtain ⟨xs⟩ := s
  cases xs with
  | nil => simp [bool, mem_iff]
  | cons a rest =>
    simp only [bool, List.isEmpty_cons, Bool.not_false, true_iff]
    exact ⟨a.start, a, List.mem_cons_self, start_mem (canonical.proper a List.mem_cons_self)⟩

theorem canonical_tail {a : Interval} {rest : List Interval} (h : Canonical ⟨a :: rest⟩) :
    Canonical ⟨rest⟩ :=
  ⟨fun b member => h.proper b (List.mem_cons_of_mem _ member), (List.pairwise_cons.mp h.sorted).2⟩

theorem mem_cons_iff {a : Interval} {rest : List Interval} {x : Int} :
    x ∈ (⟨a :: rest⟩ : CanonicalIntervalSet) ↔ x ∈ a ∨ x ∈ (⟨rest⟩ : CanonicalIntervalSet) := by
  simp [mem_iff]

theorem tail_after {a : Interval} {rest : List Interval} {x : Int} (h : Canonical ⟨a :: rest⟩)
    (later : x ∈ (⟨rest⟩ : CanonicalIntervalSet)) : a.end_ + 1 < x := by
  obtain ⟨b, member, inside⟩ := later
  have apart := (List.pairwise_cons.mp h.sorted).1 b member
  rw [Before] at apart
  rw [Interval.mem_iff] at inside
  omega

theorem canonical_ext {s t : CanonicalIntervalSet} (left : Canonical s) (right : Canonical t)
    (same : ∀ x, x ∈ s ↔ x ∈ t) : s = t := by
  obtain ⟨xs⟩ := s
  obtain ⟨ys⟩ := t
  congr 1
  induction xs generalizing ys with
  | nil =>
    cases ys with
    | nil => rfl
    | cons b ys =>
      have inside := (same b.start).mpr
        ⟨b, List.mem_cons_self, start_mem (right.proper b List.mem_cons_self)⟩
      obtain ⟨c, member, _⟩ := inside
      cases member
  | cons a xs ih =>
    cases ys with
    | nil =>
      have inside := (same a.start).mp
        ⟨a, List.mem_cons_self, start_mem (left.proper a List.mem_cons_self)⟩
      obtain ⟨c, member, _⟩ := inside
      cases member
    | cons b ys =>
      have properA : a.start ≤ a.end_ := left.proper a List.mem_cons_self
      have properB : b.start ≤ b.end_ := right.proper b List.mem_cons_self
      -- each end point of one head, and its outer neighbour, is looked up in the other list
      have here : ∀ x, (a.start ≤ x ∧ x ≤ a.end_) ∨ x ∈ (⟨xs⟩ : CanonicalIntervalSet) ↔
          (b.start ≤ x ∧ x ≤ b.end_) ∨ x ∈ (⟨ys⟩ : CanonicalIntervalSet) := by
        intro x
        have := same x
        rw [mem_cons_iff, mem_cons_iff] at this
        exact this
      have laterA : ∀ x, x ∈ (⟨xs⟩ : CanonicalIntervalSet) → a.end_ + 1 < x :=
        fun x => tail_after left
      have laterB : ∀ x, x ∈ (⟨ys⟩ : CanonicalIntervalSet) → b.end_ + 1 < x :=
        fun x => tail_after right
      have startEq : a.start = b.start := by
        have first := (here a.start).mp (Or.inl ⟨Int.le_refl _, properA⟩)
        have second := (here b.start).mpr (Or.inl ⟨Int.le_refl _, properB⟩)
        rcases first with first | first
        · rcases second with second | second
          · omega
          · have := laterA _ second
            omega
        · have := laterB _ first
          rcases second with second | second
          · omega
          · have := laterA _ second
            omega
      have endEq : a.end_ = b.end_ := by
        rcases Int.lt_trichotomy a.end_ b.end_ with less | same | more
        · rcases (here (a.end_ + 1)).mpr (Or.inl (by omega)) with inside | inside
          · omega
          · have := laterA _ inside
            omega
        · exact same
        · rcases (here (b.end_ + 1)).mp (Or.inl (by omega)) with inside | inside
          · omega
          · have := laterB _ inside
            omega
      have heads : a = b := by
        obtain ⟨_, _⟩ := a
        obtain ⟨_, _⟩ := b
        simp only at startEq endEq
        rw [startEq, endEq]
      subst heads
      have tails : ∀ x, x ∈ (⟨xs⟩ : CanonicalIntervalSet) ↔ x ∈ (⟨ys⟩ : CanonicalIntervalSet) := by
        intro x
        constructor
        · intro inside
          have := laterA x inside
          exact ((here x).mp (Or.inr inside)).resolve_left (by omega)
        · intro inside
          have := laterB x inside
          exact ((here x).mpr (Or.inr inside)).resolve_left (by omega)
      rw [ih (canonical_tail left) ys (canonical_tail right) tails]

/-- Replacing each interval by parts of it, in order, keeps the canonical form. -/
theorem canonical_flatMap (xs : List Interval) {f : Interval → List Interval}
    (whole : Canonical ⟨xs⟩)
    (within : ∀ a ∈ xs, ∀ c ∈ f a, c.Proper ∧ a.start ≤ c.start ∧ c.end_ ≤ a.end_)
    (parts : ∀ a ∈ xs, (f a).Pairwise Before) : Canonical ⟨xs.flatMap f⟩ := by
  constructor
  · intro c member
    obtain ⟨a, ha, hc⟩ := List.mem_flatMap.mp member
    exact (within a ha c hc).1
  · show (xs.flatMap f).Pairwise Before
    rw [List.pairwise_flatMap]
    refine ⟨parts, ?_⟩
    refine List.Pairwise.imp_of_mem ?_ whole.sorted
    intro a b ha hb before c hc d hd
    have first := (within a ha c hc).2.2
    have second := (within b hb d hd).2.1
    rw [Before] at before ⊢
    omega

theorem and_canonical {s t : CanonicalIntervalSet} (left : Canonical s) (right : Canonical t) :
    Canonical (s.and t) := by
  refine canonical_flatMap s.interval_set left ?_ ?_
  · intro a _ c member
    obtain ⟨b, _, hc⟩ := List.mem_flatMap.mp member
    have := and_within hc
    exact ⟨this.1, this.2.1, this.2.2.1⟩
  · intro a _
    refine (canonical_flatMap t.interval_set right ?_ ?_).sorted
    · intro b _ c hc
      have := and_within hc
      exact ⟨this.1, this.2.2.2⟩
    · intro b _
      exact and_pairwise a b

theorem mem_and {s t : CanonicalIntervalSet} {x : Int} : x ∈ s.and t ↔ x ∈ s ∧ x ∈ t := by
  simp only [mem_iff, CanonicalIntervalSet.and, List.mem_flatMap]
  constructor
  · rintro ⟨c, ⟨a, ha, b, hb, hc⟩, inside⟩
    obtain ⟨inA, inB⟩ := Interval.mem_and.mp ⟨c, hc, inside⟩
    exact ⟨⟨a, ha, inA⟩, ⟨b, hb, inB⟩⟩
  · rintro ⟨⟨a, ha, inA⟩, ⟨b, hb, inB⟩⟩
    obtain ⟨c, hc, inside⟩ := Interval.mem_and.mpr ⟨inA, inB⟩
    exact ⟨c, ⟨a, ha, b, hb, hc⟩, inside⟩

theorem addHole_canonical {s : CanonicalIntervalSet} {hole : Interval} (whole : Canonical s)
    (proper : hole.Proper) : Canonical (s.addHole hole) := by
  refine canonical_flatMap s.interval_set whole ?_ ?_
  · intro a ha c hc
    exact sub_within (whole.proper a ha) hc
  · intro a _
    exact sub_pairwise proper

theorem mem_addHole {s : CanonicalIntervalSet} {hole : Interval} {x : Int}
    (proper : hole.Proper) : x ∈ s.addHole hole ↔ x ∈ s ∧ x ∉ hole := by
  simp only [mem_iff, addHole, List.mem_flatMap]
  constructor
  · rintro ⟨c, ⟨a, ha, hc⟩, inside⟩
    obtain ⟨inA, out⟩ := (mem_sub proper).mp ⟨c, hc, inside⟩
    exact ⟨⟨a, ha, inA⟩, out⟩
  · rintro ⟨⟨a, ha, inA⟩, out⟩
    obtain ⟨c, hc, inside⟩ := (mem_sub proper).mpr ⟨inA, out⟩
    exact ⟨c, ⟨a, ha, hc⟩, inside⟩

theorem sub_spec {s t : CanonicalIntervalSet} (left : Canonical s) (right : Canonical t) :
    Canonical (s.sub t) ∧ ∀ x, x ∈ s.sub t ↔ x ∈ s ∧ x ∉ t := by
  obtain ⟨holes⟩ := t
  unfold CanonicalIntervalSet.sub
  dsimp only
  induction holes generalizing s with
  | nil =>
    refine ⟨left, fun x => ?_⟩
    simp [mem_iff]
  | cons hole rest ih =>
    have proper := right.proper hole List.mem_cons_self
    obtain ⟨canonical, members⟩ := ih (addHole_canonical left proper) (canonical_tail right)
    refine ⟨canonical, fun x => ?_⟩
    rw [List.foldl_cons, members, mem_addHole proper, mem_cons_iff]
    tauto

end CanonicalIntervalSet

end Nca.CoreDS
