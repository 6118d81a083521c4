import Nca.CoreDS.Dimensions

/-!
Layer elements denote sets of coordinates. On elements of one dimension type every operation ends
without an error and denotes its set operation, and an element is determined by its coordinates.
-/

namespace Nca.CoreDS
open Lib Python

variable {L : Type} [ExactSet L String]

namespace Item

def type : Item → DimensionType
  | int _ => .IntervalSet
  | str _ => .DFA

end Item

namespace LayerElem

@[simp] theorem mem_intervals {s : CanonicalIntervalSet} {n : Int} :
    Item.int n ∈ (intervals s : LayerElem L) ↔ n ∈ s := Iff.rfl

@[simp] theorem mem_dfa {l : L} {w : String} : Item.str w ∈ (dfa l : LayerElem L) ↔ w ∈ l := Iff.rfl

@[simp] theorem str_not_mem {s : CanonicalIntervalSet} {w : String} :
    Item.str w ∉ (intervals s : LayerElem L) := id

@[simp] theorem int_not_mem {l : L} {n : Int} : Item.int n ∉ (dfa l : LayerElem L) := id

/-- The element has this type, and its intervals are in canonical form. -/
structure Shaped (t : DimensionType) (e : LayerElem L) : Prop where
  type : e.type = t
  canonical : e.Canonical

variable {t : DimensionType} {e f : LayerElem L}

theorem mem_type {x : Item} (member : x ∈ e) : x.type = e.type := by
  cases e <;> cases x
  · rfl
  · exact (str_not_mem member).elim
  · exact (int_not_mem member).elim
  · rfl

theorem bool_iff (shaped : Shaped t e) : e.bool = true ↔ ∃ x, x ∈ e := by
  cases e with
  | intervals s =>
    rw [bool, CanonicalIntervalSet.bool_iff shaped.canonical]
    constructor
    · rintro ⟨n, member⟩
      exact ⟨.int n, member⟩
    · rintro ⟨x, member⟩
      cases x with
      | int n => exact ⟨n, member⟩
      | str w => exact (str_not_mem member).elim
  | dfa l =>
    rw [bool, ExactSet.bool_iff]
    constructor
    · rintro ⟨w, member⟩
      exact ⟨.str w, member⟩
    · rintro ⟨x, member⟩
      cases x with
      | int n => exact (int_not_mem member).elim
      | str w => exact ⟨w, member⟩

theorem bool_eq_false (shaped : Shaped t e) : e.bool = false ↔ ∀ x, x ∉ e := by
  rw [← Bool.not_eq_true, bool_iff shaped, not_exists]

theorem ext (left : Shaped t e) (right : Shaped t f) (same : ∀ x, x ∈ e ↔ x ∈ f) : e = f := by
  have types := left.type.trans right.type.symm
  cases e with
  | intervals s =>
    cases f with
    | dfa m => cases types
    | intervals s' =>
      rw [CanonicalIntervalSet.canonical_ext left.canonical right.canonical
        fun n => same (.int n)]
  | dfa l =>
    cases f with
    | intervals s' => cases types
    | dfa m =>
      rw [ExactSet.eq_iff.mpr fun w => same (.str w)]

theorem and_spec (left : Shaped t e) (right : Shaped t f) :
    Returns (e.and f) fun g => Shaped t g ∧ ∀ x, x ∈ g ↔ x ∈ e ∧ x ∈ f := by
  have types := left.type.trans right.type.symm
  cases e with
  | intervals s =>
    cases f with
    | dfa m => cases types
    | intervals s' =>
      refine returns_pure ⟨⟨left.type, ?_⟩, ?_⟩
      · exact CanonicalIntervalSet.and_canonical left.canonical right.canonical
      · intro x
        cases x with
        | int n => exact CanonicalIntervalSet.mem_and
        | str w => simp
  | dfa l =>
    cases f with
    | intervals s' => cases types
    | dfa m =>
      refine returns_pure ⟨⟨left.type, trivial⟩, ?_⟩
      intro x
      cases x <;> simp

theorem or_spec (left : Shaped t e) (right : Shaped t f) :
    Returns (e.or f) fun g => Shaped t g ∧ ∀ x, x ∈ g ↔ x ∈ e ∨ x ∈ f := by
  have types := left.type.trans right.type.symm
  cases e with
  | intervals s =>
    cases f with
    | dfa m => cases types
    | intervals s' =>
      refine returns_bind (CanonicalIntervalSet.or_spec left.canonical right.canonical) ?_
      rintro u ⟨canonical, members⟩
      refine returns_pure ⟨⟨left.type, canonical⟩, ?_⟩
      intro x
      cases x with
      | int n => exact members n
      | str w => simp
  | dfa l =>
    cases f with
    | intervals s' => cases types
    | dfa m =>
      refine returns_pure ⟨⟨left.type, trivial⟩, ?_⟩
      intro x
      cases x <;> simp

theorem sub_spec (left : Shaped t e) (right : Shaped t f) :
    Returns (e.sub f) fun g => Shaped t g ∧ ∀ x, x ∈ g ↔ x ∈ e ∧ x ∉ f := by
  have types := left.type.trans right.type.symm
  cases e with
  | intervals s =>
    cases f with
    | dfa m => cases types
    | intervals s' =>
      obtain ⟨canonical, members⟩ :=
        CanonicalIntervalSet.sub_spec left.canonical right.canonical
      refine returns_pure ⟨⟨left.type, canonical⟩, ?_⟩
      intro x
      cases x with
      | int n => exact members n
      | str w => simp
  | dfa l =>
    cases f with
    | intervals s' => cases types
    | dfa m =>
      refine returns_pure ⟨⟨left.type, trivial⟩, ?_⟩
      intro x
      cases x <;> simp

theorem containedIn_spec (left : Shaped t e) (right : Shaped t f) :
    Returns (e.containedIn f) fun answer => (answer = true ↔ ∀ x, x ∈ e → x ∈ f) := by
  have types := left.type.trans right.type.symm
  cases e with
  | intervals s =>
    cases f with
    | dfa m => cases types
    | intervals s' =>
      refine returns_mono
        (CanonicalIntervalSet.containedIn_spec left.canonical right.canonical) ?_
      intro answer decides
      rw [decides]
      constructor
      · intro within x member
        cases x with
        | int n => exact within n member
        | str w => exact (str_not_mem member).elim
      · intro within n member
        exact within (.int n) member
  | dfa l =>
    cases f with
    | intervals s' => cases types
    | dfa m =>
      refine returns_pure ?_
      rw [Bool.not_eq_true', ExactSet.bool_eq_false]
      constructor
      · intro none x member
        cases x with
        | int n => exact (int_not_mem member).elim
        | str w =>
          by_cases inside : w ∈ m
          · exact inside
          · exact (none w (ExactSet.mem_sdiff.mpr ⟨member, inside⟩)).elim
      · intro within w member
        obtain ⟨inside, outside⟩ := ExactSet.mem_sdiff.mp member
        exact outside (within (.str w) inside)

theorem contains_spec {x : Item} (shaped : Shaped t e) (typed : x.type = t) :
    Returns (e.contains x) fun answer => (answer = true ↔ x ∈ e) := by
  have types := typed.trans shaped.type.symm
  cases e with
  | intervals s =>
    cases x with
    | str w => cases types
    | int n => exact CanonicalIntervalSet.contains_spec shaped.canonical n
  | dfa l =>
    cases x with
    | int n => cases types
    | str w => exact returns_pure (by simp)

theorem foldlM_or_spec {first : LayerElem L} {others : List (LayerElem L)}
    (head : Shaped t first) (tail : ∀ e ∈ others, Shaped t e) :
    Returns (others.foldlM LayerElem.or first) fun g =>
      Shaped t g ∧ ∀ x, x ∈ g ↔ ∃ e ∈ first :: others, x ∈ e := by
  refine returns_mono (returns_foldlM
    (fun done g => Shaped t g ∧ ∀ x, x ∈ g ↔ ∃ e ∈ first :: done, x ∈ e) ?_ ?_) (fun _ h => h)
  · exact ⟨head, fun x => by simp⟩
  · rintro done e rest acc whole ⟨shaped, members⟩
    refine returns_mono (or_spec shaped (tail e (by simp [whole]))) ?_
    rintro g ⟨shaped', members'⟩
    refine ⟨shaped', fun x => ?_⟩
    rw [members', members]
    simp only [List.mem_cons, List.mem_append, List.not_mem_nil, or_false]
    constructor
    · rintro (⟨a, inside, member⟩ | member)
      · exact ⟨a, inside.imp_right Or.inl, member⟩
      · exact ⟨e, Or.inr (Or.inr rfl), member⟩
    · rintro ⟨a, rfl | inside | rfl, member⟩
      · exact Or.inl ⟨a, Or.inl rfl, member⟩
      · exact Or.inl ⟨a, Or.inr inside, member⟩
      · exact Or.inr member

end LayerElem

namespace Space
open LayerElem

variable (space : Space L)

/-- The domain of a dimension of the space. -/
def domain (d : String) : LayerElem L :=
  match Dict.get space.manager.dim_dict d with
  | some entry => entry.2
  | none => .intervals {}

variable {space : Space L} {d : String}

theorem domain_shaped (member : d ∈ space.all_dimensions_list) :
    Shaped (space.domain d).type (space.domain d) := by
  obtain ⟨entry, found, typed, canonical, some⟩ := space.domains d member
  refine ⟨rfl, ?_⟩
  rw [domain, found]
  exact canonical

theorem domain_some (member : d ∈ space.all_dimensions_list) : ∃ x, x ∈ space.domain d := by
  obtain ⟨entry, found, typed, canonical, some⟩ := space.domains d member
  rw [domain, found]
  exact some

theorem getDomain_eq (member : d ∈ space.all_dimensions_list) :
    space.manager.getDimensionDomainByName d = .ok (space.domain d) := by
  obtain ⟨entry, found, typed, canonical, some⟩ := space.domains d member
  rw [DimensionsManager.getDimensionDomainByName, domain, found]

theorem getType_eq (member : d ∈ space.all_dimensions_list) :
    space.manager.getDimensionTypeByName d = .ok (space.domain d).type := by
  obtain ⟨entry, found, typed, canonical, some⟩ := space.domains d member
  rw [DimensionsManager.getDimensionTypeByName, domain, found]
  dsimp only
  rw [typed]

/-- A key of a layer over `d`: values of the dimension, at least one of them. -/
structure Key (space : Space L) (d : String) (e : LayerElem L) : Prop where
  shaped : Shaped (space.domain d).type e
  some : ∃ x, x ∈ e
  within : ∀ x, x ∈ e → x ∈ space.domain d

theorem domain_key (member : d ∈ space.all_dimensions_list) : Key space d (space.domain d) :=
  ⟨domain_shaped member, domain_some member, fun _ h => h⟩

theorem key_bool {e : LayerElem L} (key : Key space d e) : e.bool = true :=
  (bool_iff key.shaped).mpr key.some

/-- Points of the space: in every dimension of the space a value of its domain. -/
def Point (space : Space L) (p : String → Item) : Prop :=
  ∀ d ∈ space.all_dimensions_list, p d ∈ space.domain d

theorem point_exists (space : Space L) : ∃ p, Point space p := by
  have each : ∀ d, ∃ x, d ∈ space.all_dimensions_list → x ∈ space.domain d := by
    intro d
    by_cases member : d ∈ space.all_dimensions_list
    · obtain ⟨x, inside⟩ := domain_some member
      exact ⟨x, fun _ => inside⟩
    · exact ⟨.int 0, fun h => (member h).elim⟩
  choose p inside using each
  exact ⟨p, inside⟩

theorem point_update {p : String → Item} {x : Item} (point : Point space p)
    (inside : x ∈ space.domain d) : Point space (Function.update p d x) := by
  intro d' member
  by_cases same : d' = d
  · subst same
    simpa using inside
  · simpa [same] using point d' member

end Space
end Nca.CoreDS
