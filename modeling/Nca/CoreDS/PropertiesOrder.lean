import Nca.CoreDS.PropertiesText
import Nca.Lib.Measures

/-!
The comparison of connectivity properties, by which they are sorted: fewer cubes or a smaller text. It
orders some properties just where these two never disagree.
-/

namespace Nca.CoreDS
open Lib Python Space CanonicalHyperCubeSet

variable {D K : Type} [MinDFA D] [DecidableEq K]

section Order
variable (space : Space (DfaElem D)) (printing : Printing K)

/-- The properties have this number of cubes and this printed form. -/
structure Prints (a : PrintedProperties D) (cubes : Nat) (text : String) : Prop where
  cubes : len space a.props = .ok cubes
  text : strProperties space printing a = .ok text

/-- Among these properties all comparisons end, and they make a strict weak order. -/
structure Sortable (S : Set (PrintedProperties D)) : Prop where
  returns : ∀ a ∈ S, ∀ b ∈ S, ∃ answer, ltProperties space printing a b = .ok answer
  order : IsStrictWeakOrder S fun a b => ltProperties space printing a.1 b.1 = .ok true

/-- All of these properties have a printed form, and none with fewer cubes than another has a larger one. -/
structure AgreeOn (S : Set (PrintedProperties D)) : Prop where
  prints : ∀ a ∈ S, ∃ cubes text, Prints space printing a cubes text
  agree : ∀ a ∈ S, ∀ b ∈ S, ∀ cubes text cubes' text', Prints space printing a cubes text →
    Prints space printing b cubes' text' → cubes < cubes' → ¬ text' < text

end Order

variable {space : Space (DfaElem D)} {printing : Printing K} {a b : PrintedProperties D}

theorem lt_iff {cubes cubes' : Nat} {text text' : String} (left : Prints space printing a cubes text)
    (right : Prints space printing b cubes' text') :
    Returns (ltProperties space printing a b) fun answer =>
      (answer = true ↔ cubes < cubes' ∨ text < text') := by
  unfold ltProperties
  rw [left.cubes, ok_bind, right.cubes, ok_bind]
  apply returns_ite
  · exact fun fewer => returns_pure (iff_of_true rfl (Or.inl fewer))
  · intro notFewer
    rw [left.text, ok_bind, right.text, ok_bind]
    apply returns_pure
    rw [decide_eq_true_eq, or_iff_right notFewer]

theorem prints_unique {cubes cubes' : Nat} {text text' : String} (left : Prints space printing a cubes text)
    (right : Prints space printing a cubes' text') : cubes = cubes' ∧ text = text' :=
  ⟨Except.ok.inj (left.cubes.symm.trans right.cubes), Except.ok.inj (left.text.symm.trans right.text)⟩

/-- Properties that can be compared with themselves have a printed form. -/
theorem prints_of_lt {answer : Bool} (compared : ltProperties space printing a a = .ok answer) :
    ∃ cubes text, Prints space printing a cubes text := by
  obtain ⟨cubes, measured, run⟩ := bind_ok.mp compared
  rw [measured, ok_bind, if_neg (Nat.lt_irrefl cubes)] at run
  obtain ⟨text, printed, _⟩ := bind_ok.mp run
  exact ⟨cubes, text, measured, printed⟩

/-- The comparison is a strict weak order of some properties exactly where number of cubes and printed
form agree. -/
theorem ltProperties_exact (S : Set (PrintedProperties D)) :
    Sortable space printing S ↔ AgreeOn space printing S := by
  have each : (∀ a ∈ S, ∃ cubes text, Prints space printing a cubes text) →
      ((∀ a ∈ S, ∀ b ∈ S, ∃ answer, ltProperties space printing a b = .ok answer) ∧
        (IsStrictWeakOrder S (fun a b => ltProperties space printing a.1 b.1 = .ok true) ↔
          AgreeOn space printing S)) := by
    intro prints
    choose f g printed using fun a : S => prints a.1 a.2
    have compared : ∀ a b : S, Returns (ltProperties space printing a.1 b.1) fun answer =>
        (answer = true ↔ f a < f b ∨ g a < g b) := fun a b => lt_iff (printed a) (printed b)
    have same : (fun a b : S => ltProperties space printing a.1 b.1 = .ok true) =
        fun a b => f a < f b ∨ g a < g b := by
      funext a b
      obtain ⟨answer, run, decides⟩ := compared a b
      rw [run, ← decides]
      exact propext ⟨Except.ok.inj, congrArg Except.ok⟩
    constructor
    · intro a inS b inS'
      obtain ⟨answer, run, _⟩ := compared ⟨a, inS⟩ ⟨b, inS'⟩
      exact ⟨answer, run⟩
    · rw [same, isStrictWeakOrder_either]
      constructor
      · intro agree
        refine ⟨prints, fun a inS b inS' cubes text cubes' text' left right => ?_⟩
        obtain ⟨rfl, rfl⟩ := prints_unique left (printed ⟨a, inS⟩)
        obtain ⟨rfl, rfl⟩ := prints_unique right (printed ⟨b, inS'⟩)
        exact agree ⟨a, inS⟩ ⟨b, inS'⟩
      · intro agree a b
        exact agree.agree a.1 a.2 b.1 b.2 _ _ _ _ (printed a) (printed b)
  constructor
  · intro sortable
    have prints : ∀ a ∈ S, ∃ cubes text, Prints space printing a cubes text := by
      intro a inS
      obtain ⟨answer, run⟩ := sortable.returns a inS a inS
      exact prints_of_lt run
    exact (each prints).2.mp sortable.order
  · intro agree
    obtain ⟨returns, order⟩ := each agree.prints
    exact ⟨returns, order.mpr agree⟩

section Extremes

/-- No connections and all connections, printed where no peer is registered. -/
noncomputable def extremeSpace : Space (DfaElem WordSet) := (ConnectivitySpace.init WordSet).toSpace

def noPeers : Printing String := ⟨{}, {}, fun _ _ => "", Char.isAlphanum⟩

noncomputable def noConnections : PrintedProperties WordSet := ⟨init extremeSpace, fun _ _ => ""⟩

noncomputable def allConnections : PrintedProperties WordSet := ⟨init extremeSpace true, fun _ _ => ""⟩

theorem noConnections_prints : Prints extremeSpace noPeers noConnections 0 "No connections" := ⟨rfl, rfl⟩

theorem allConnections_prints : Prints extremeSpace noPeers allConnections 1 "All connections" := ⟨rfl, rfl⟩

/-- Each of the two is smaller than the other. -/
theorem extremes_not_ordered : ltProperties extremeSpace noPeers noConnections allConnections = .ok true ∧
    ltProperties extremeSpace noPeers allConnections noConnections = .ok true ∧
    ¬ Sortable extremeSpace noPeers {noConnections, allConnections} := by
  have first : ltProperties extremeSpace noPeers noConnections allConnections = .ok true := by
    obtain ⟨answer, run, decides⟩ := lt_iff noConnections_prints allConnections_prints
    rw [run, decides.mpr (Or.inl (by decide))]
  have second : ltProperties extremeSpace noPeers allConnections noConnections = .ok true := by
    obtain ⟨answer, run, decides⟩ := lt_iff allConnections_prints noConnections_prints
    rw [run, decides.mpr (Or.inr (by decide))]
  refine ⟨first, second, fun sortable => ?_⟩
  have order := sortable.order
  have both := order.trans ⟨noConnections, Or.inl rfl⟩ ⟨allConnections, Or.inr rfl⟩ ⟨noConnections, Or.inl rfl⟩
    first second
  exact order.irrefl ⟨noConnections, Or.inl rfl⟩ both

end Extremes

end Nca.CoreDS
