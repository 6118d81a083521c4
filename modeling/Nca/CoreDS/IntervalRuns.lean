import Nca.CoreDS.IntervalSearch
import Nca.Lib.Runs
import Mathlib.Logic.Function.Basic
import Mathlib.Data.Set.Basic

/-!
Runs over interval sets. A program adds and removes intervals and combines sets in any order, all
of them empty at first; sets of integers follow it.
-/

namespace Nca.CoreDS
open Lib Python Interval

namespace CanonicalIntervalSet

variable {V : Type} [DecidableEq V]

/-- One operation of a program whose sets are named by `V`. -/
inductive Cmd (V : Type) where
  | addInterval (self : V) (interval_to_add : Interval)
  | addHole (self : V) (hole : Interval)
  | and (result self other : V)
  | or (result self other : V)
  | sub (result self other : V)
  | iand (self other : V)
  | ior (self other : V)
  | isub (self other : V)

def step (store : V → CanonicalIntervalSet) :
    Cmd V → Except Failure (V → CanonicalIntervalSet)
  | .addInterval v interval => do
    pure (Function.update store v (← (store v).addInterval interval))
  | .addHole v hole => pure (Function.update store v ((store v).addHole hole))
  | .and u v w => pure (Function.update store u ((store v).and (store w)))
  | .or u v w => do pure (Function.update store u (← (store v).or (store w)))
  | .sub u v w => pure (Function.update store u ((store v).sub (store w)))
  | .iand v w => pure (Function.update store v ((store v).and (store w)))
  | .ior v w => do pure (Function.update store v (← (store v).or (store w)))
  | .isub v w => pure (Function.update store v ((store v).sub (store w)))

def run (cmds : List (Cmd V)) : Except Failure (V → CanonicalIntervalSet) :=
  cmds.foldlM step fun _ => {}

/-- The same operation on sets of integers. -/
def absStep (sets : V → Set Int) : Cmd V → V → Set Int
  | .addInterval v interval => Function.update sets v (sets v ∪ {x | x ∈ interval})
  | .addHole v hole => Function.update sets v (sets v \ {x | x ∈ hole})
  | .and u v w => Function.update sets u (sets v ∩ sets w)
  | .or u v w => Function.update sets u (sets v ∪ sets w)
  | .sub u v w => Function.update sets u (sets v \ sets w)
  | .iand v w => Function.update sets v (sets v ∩ sets w)
  | .ior v w => Function.update sets v (sets v ∪ sets w)
  | .isub v w => Function.update sets v (sets v \ sets w)

def absRun (cmds : List (Cmd V)) : V → Set Int :=
  cmds.foldl absStep fun _ => ∅

/-- Intervals that are added have an element. -/
def AddsProper : Cmd V → Prop
  | .addInterval _ interval => interval.Proper
  | _ => True

/-- Moreover a hole with its ends in the wrong order does not lie within an interval of the set. -/
def Acceptable (store : V → CanonicalIntervalSet) : Cmd V → Prop
  | .addInterval _ interval => interval.Proper
  | .addHole v hole =>
    hole.Proper ∨ ∀ a ∈ (store v).interval_set, ¬ (hole.end_ ∈ a ∧ hole.start ∈ a)
  | _ => True

/-- A canonical set with exactly these integers. -/
def Represents (s : CanonicalIntervalSet) (S : Set Int) : Prop :=
  Canonical s ∧ ∀ x, x ∈ s ↔ x ∈ S

variable {s t : CanonicalIntervalSet} {S T : Set Int} {hole : Interval}

theorem overlaps_iff (left : Canonical s) (right : Canonical t) :
    s.overlaps t = true ↔ ∃ x, x ∈ s ∧ x ∈ t := by
  simp only [overlaps, List.any_eq_true, Interval.overlaps, decide_eq_true_eq]
  constructor
  · rintro ⟨a, ha, b, hb, low, high⟩
    have properA : a.start ≤ a.end_ := left.proper a ha
    have properB : b.start ≤ b.end_ := right.proper b hb
    refine ⟨max a.start b.start, ⟨a, ha, ?_⟩, ⟨b, hb, ?_⟩⟩
    · rw [Interval.mem_iff]
      omega
    · rw [Interval.mem_iff]
      omega
  · rintro ⟨x, ⟨a, ha, inA⟩, ⟨b, hb, inB⟩⟩
    rw [Interval.mem_iff] at inA inB
    refine ⟨a, ha, b, hb, ?_, ?_⟩
    · omega
    · omega

/-- A hole with its ends in the wrong order, both of them not in one interval, changes nothing. -/
theorem addHole_apart (canonical : Canonical s) (improper : ¬ hole.Proper)
    (apart : ∀ a ∈ s.interval_set, ¬ (hole.end_ ∈ a ∧ hole.start ∈ a)) : s.addHole hole = s := by
  have kept : ∀ a ∈ s.interval_set, a.sub hole = [a] := by
    intro a member
    have proper : a.start ≤ a.end_ := canonical.proper a member
    have out := apart a member
    unfold Proper at improper
    simp only [Interval.mem_iff] at out
    have disjoint : a.overlaps hole = false := by
      unfold Interval.overlaps
      rw [decide_eq_false_iff_not]
      omega
    unfold Interval.sub
    rw [disjoint]
    rfl
  unfold addHole
  rw [List.flatMap_congr kept, List.flatMap_singleton']

theorem represents_addInterval (represents : Represents s S) {interval : Interval}
    (proper : interval.Proper) :
    Returns (s.addInterval interval) (Represents · (S ∪ {x | x ∈ interval})) := by
  refine returns_mono (addInterval_spec proper represents.1) ?_
  rintro r ⟨canonical, members⟩
  exact ⟨canonical, fun x => (members x).trans (or_congr_left (represents.2 x))⟩

theorem represents_addHole (represents : Represents s S)
    (fits : hole.Proper ∨ ∀ a ∈ s.interval_set, ¬ (hole.end_ ∈ a ∧ hole.start ∈ a)) :
    Represents (s.addHole hole) (S \ {x | x ∈ hole}) := by
  by_cases proper : hole.Proper
  · refine ⟨addHole_canonical represents.1 proper, fun x => ?_⟩
    exact (mem_addHole proper).trans (and_congr_left' (represents.2 x))
  · rw [addHole_apart represents.1 proper (fits.resolve_left proper)]
    refine ⟨represents.1, fun x => (represents.2 x).trans ?_⟩
    have out : x ∉ hole := by
      unfold Proper at proper
      rw [Interval.mem_iff]
      omega
    exact (and_iff_left out).symm

theorem represents_and (left : Represents s S) (right : Represents t T) :
    Represents (s.and t) (S ∩ T) :=
  ⟨and_canonical left.1 right.1, fun x => mem_and.trans (and_congr (left.2 x) (right.2 x))⟩

theorem represents_or (left : Represents s S) (right : Represents t T) :
    Returns (s.or t) (Represents · (S ∪ T)) := by
  refine returns_mono (or_spec left.1 right.1) ?_
  rintro r ⟨canonical, members⟩
  exact ⟨canonical, fun x => (members x).trans (or_congr (left.2 x) (right.2 x))⟩

theorem represents_sub (left : Represents s S) (right : Represents t T) :
    Represents (s.sub t) (S \ T) := by
  obtain ⟨canonical, members⟩ := sub_spec left.1 right.1
  exact ⟨canonical, fun x => (members x).trans (and_congr (left.2 x) (not_congr (right.2 x)))⟩

/-- Every set of the store is canonical and has the integers of its set. -/
def StoreRepresents (store : V → CanonicalIntervalSet) (sets : V → Set Int) : Prop :=
  ∀ v, Represents (store v) (sets v)

variable {store : V → CanonicalIntervalSet} {sets : V → Set Int}

theorem store_update (stored : StoreRepresents store sets) (v : V) (new : Represents s S) :
    StoreRepresents (Function.update store v s) (Function.update sets v S) := by
  intro w
  by_cases same : w = v
  · subst same
    simpa using new
  · simpa [same] using stored w

theorem step_represents (stored : StoreRepresents store sets) (cmd : Cmd V)
    (acceptable : Acceptable store cmd) :
    Returns (step store cmd) (StoreRepresents · (absStep sets cmd)) := by
  cases cmd with
  | addInterval v interval =>
    refine returns_bind (represents_addInterval (stored v) acceptable) ?_
    exact fun r new => returns_pure (store_update stored v new)
  | addHole v hole =>
    exact returns_pure (store_update stored v (represents_addHole (stored v) acceptable))
  | and u v w => exact returns_pure (store_update stored u (represents_and (stored v) (stored w)))
  | or u v w =>
    refine returns_bind (represents_or (stored v) (stored w)) ?_
    exact fun r new => returns_pure (store_update stored u new)
  | sub u v w => exact returns_pure (store_update stored u (represents_sub (stored v) (stored w)))
  | iand v w => exact returns_pure (store_update stored v (represents_and (stored v) (stored w)))
  | ior v w =>
    refine returns_bind (represents_or (stored v) (stored w)) ?_
    exact fun r new => returns_pure (store_update stored v new)
  | isub v w => exact returns_pure (store_update stored v (represents_sub (stored v) (stored w)))

theorem represents_eq (left : Represents s S) (right : Represents t T) : s = t ↔ S = T := by
  constructor
  · rintro rfl
    exact Set.ext fun x => (left.2 x).symm.trans (right.2 x)
  · rintro rfl
    exact canonical_ext left.1 right.1 fun x => (left.2 x).trans (right.2 x).symm

/-- `self |= self` reads the list that it extends; adding an interval that is there keeps it. -/
theorem addInterval_present (canonical : Canonical s) {a : Interval} (member : a ∈ s.interval_set) :
    s.addInterval a = .ok s := by
  obtain ⟨r, found, canonical', members⟩ := addInterval_spec (canonical.proper a member) canonical
  rw [found]
  congr 1
  refine canonical_ext canonical' canonical fun x => (members x).trans ?_
  exact or_iff_left_of_imp fun inside => ⟨a, member, inside⟩

/-- Interval sets behave like sets of integers in every run that removes proper ranges. -/
theorem run_intervals {cmds : List (Cmd V)}
    (acceptable : EveryCmd step Acceptable (fun _ => {}) cmds) :
    Returns (run cmds) fun store =>
      (∀ v, Canonical (store v) ∧ ∀ x, x ∈ store v ↔ x ∈ absRun cmds v) ∧
      (∀ v w, (store v == store w) = true ↔ absRun cmds v = absRun cmds w) ∧
      (∀ v w, Returns ((store v).containedIn (store w)) fun answer =>
        (answer = true ↔ absRun cmds v ⊆ absRun cmds w)) ∧
      ∀ v w, (store v).overlaps (store w) = true ↔ (absRun cmds v ∩ absRun cmds w).Nonempty := by
  have start : StoreRepresents (fun _ : V => {}) fun _ => ∅ :=
    fun _ => ⟨canonical_empty, fun _ => iff_of_false not_mem_empty id⟩
  have follows : Returns (cmds.foldlM step fun _ => {}) (StoreRepresents · (absRun cmds)) :=
    run_follows (R := StoreRepresents) (fun _ _ cmd stored => step_represents stored cmd) start
      acceptable
  refine returns_mono follows ?_
  intro store stored
  refine ⟨stored, fun v w => ?_, fun v w => ?_, fun v w => ?_⟩
  · rw [beq_iff_eq]
    exact represents_eq (stored v) (stored w)
  · refine returns_mono (containedIn_spec (stored v).1 (stored w).1) ?_
    intro answer decides
    rw [decides]
    exact forall_congr' fun x => imp_congr ((stored v).2 x) ((stored w).2 x)
  · rw [overlaps_iff (stored v).1 (stored w).1]
    exact exists_congr fun x => and_congr ((stored v).2 x) ((stored w).2 x)

/-- Commands whose intervals all have an element. -/
def AllProper : Cmd V → Prop
  | .addInterval _ interval => interval.Proper
  | .addHole _ hole => hole.Proper
  | _ => True

omit [DecidableEq V] in
theorem acceptable_of_proper {cmd : Cmd V} (proper : AllProper cmd) : Acceptable store cmd := by
  cases cmd with
  | addInterval v interval => exact proper
  | addHole v hole => exact Or.inl proper
  | _ => trivial

theorem run_intervals_holes : Returns (run [.addInterval () ⟨1, 10⟩, .addHole () ⟨4, 5⟩])
    fun store =>
      let sets := absRun [.addInterval () ⟨1, 10⟩, .addHole () ⟨4, 5⟩]
      (∀ v, Canonical (store v) ∧ ∀ x, x ∈ store v ↔ x ∈ sets v) ∧
      (∀ v w, (store v == store w) = true ↔ sets v = sets w) ∧
      (∀ v w, Returns ((store v).containedIn (store w)) fun answer =>
        (answer = true ↔ sets v ⊆ sets w)) ∧
      ∀ v w, (store v).overlaps (store w) = true ↔ (sets v ∩ sets w).Nonempty := by
  have proper : ∀ cmd ∈ [Cmd.addInterval () ⟨1, 10⟩, .addHole () ⟨4, 5⟩], AllProper cmd := by
    intro cmd member
    simp only [List.mem_cons, List.not_mem_nil, or_false] at member
    rcases member with rfl | rfl
    · exact (by decide : (1 : Int) ≤ 10)
    · exact (by decide : (4 : Int) ≤ 5)
  exact run_intervals (everyCmd_mono (fun _ _ => acceptable_of_proper) (everyCmd_always proper))

/-- A hole with its ends in the wrong order splits an interval into two that overlap. -/
theorem improper_hole_overlaps : ∃ cmds : List (Cmd Unit), (∀ cmd ∈ cmds, AddsProper cmd) ∧
    ∃ store, run cmds = .ok store ∧ ¬ Canonical (store ()) := by
  refine ⟨[.addInterval () ⟨1, 10⟩, .addHole () ⟨5, 3⟩], ?_, _, rfl, ?_⟩
  · intro cmd member
    simp only [List.mem_cons, List.not_mem_nil, or_false] at member
    rcases member with rfl | rfl
    · exact (by decide : (1 : Int) ≤ 10)
    · trivial
  · intro canonical
    have sorted : [Interval.mk 1 4, ⟨4, 10⟩].Pairwise Before := canonical.sorted
    have apart : (4 : Int) + 1 < 4 := (List.pairwise_cons.mp sorted).1 ⟨4, 10⟩ (by simp)
    omega

end CanonicalIntervalSet
end Nca.CoreDS
