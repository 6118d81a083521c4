import Mathlib.Order.Defs.LinearOrder
import Mathlib.Order.RelClasses
import Mathlib.Order.Lattice

/-!
Comparing by two measures at once. Smaller in one of two measures is a strict weak order exactly
where the measures never disagree.
-/

namespace Nca.Lib

variable {α β γ : Type} [LinearOrder β] [LinearOrder γ] {f : α → β} {g : α → γ}

/-- Nothing that is smaller in the first measure is larger in the second. -/
def Agree (f : α → β) (g : α → γ) : Prop := ∀ a b, f a < f b → ¬ g b < g a

theorem agree_le (agree : Agree f g) {a b : α} (smaller : g a < g b) : f a ≤ f b := by
  apply le_of_not_gt
  exact fun larger => agree b a larger smaller

theorem either_trans (agree : Agree f g) {a b c : α} (first : f a < f b ∨ g a < g b)
    (second : f b < f c ∨ g b < g c) : f a < f c ∨ g a < g c := by
  rcases first with first | first
  · rcases second with second | second
    · exact Or.inl (lt_trans first second)
    · exact Or.inl (lt_of_lt_of_le first (agree_le agree second))
  · rcases second with second | second
    · exact Or.inl (lt_of_le_of_lt (agree_le agree first) second)
    · exact Or.inr (lt_trans first second)

/-- Elements that are not comparable have the same measures. -/
theorem same_measures {a b : α} (not_lt : ¬ (f a < f b ∨ g a < g b)) (not_gt : ¬ (f b < f a ∨ g b < g a)) :
    f a = f b ∧ g a = g b := by
  obtain ⟨left, left'⟩ := not_or.mp not_lt
  obtain ⟨right, right'⟩ := not_or.mp not_gt
  exact ⟨le_antisymm (le_of_not_gt right) (le_of_not_gt left),
    le_antisymm (le_of_not_gt right') (le_of_not_gt left')⟩

theorem isStrictWeakOrder_either : IsStrictWeakOrder α (fun a b => f a < f b ∨ g a < g b) ↔ Agree f g := by
  constructor
  · intro order a b smaller larger
    have both := order.trans a b a (Or.inl smaller) (Or.inr larger)
    exact order.irrefl a both
  · intro agree
    refine {
      irrefl := fun a either => either.elim (lt_irrefl _) (lt_irrefl _)
      trans := fun a b c => either_trans agree
      incomp_trans := ?_ }
    rintro a b c ⟨left, right⟩ ⟨left', right'⟩
    obtain ⟨same, same'⟩ := same_measures left right
    rw [same, same']
    exact ⟨left', right'⟩

end Nca.Lib
