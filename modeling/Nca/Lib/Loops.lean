import Mathlib.Data.Finset.Basic
import Nca.Lib.Python

/-!
Loops over a state that changes from turn to turn. A turn ends the loop with a result or hands on
a state. A loop whose turns keep an invariant and make a measure smaller ends, and its result is
one that some turn ended with. The elements of a set come in any order, and in another one each
turn.
-/

namespace Nca.Lib

variable {ρ σ : Type}

/-- The order in which a turn of a loop visits the elements of a set. -/
abbrev SetOrder (α : Type) := Nat → Finset α → List α

/-- Every turn visits each element. -/
def SetOrder.Visits {α : Type} (order : SetOrder α) : Prop :=
  ∀ turn s a, a ∈ order turn s ↔ a ∈ s

/-- How one turn of a loop ends. -/
inductive Turn (ρ σ : Type) where
  | done (result : ρ)
  | again (state : σ)
  deriving DecidableEq

/-- At most `fuel` turns of a loop. -/
def loop (turn : σ → Except Python.Failure (Turn ρ σ)) : Nat → σ → Except Python.Failure ρ
  | 0, _ => .error .diverged
  | fuel + 1, state => do
    match ← turn state with
    | .done result => pure result
    | .again next => loop turn fuel next

variable {turn : σ → Except Python.Failure (Turn ρ σ)} {inv : σ → Prop} {post : ρ → Prop}
  {measure : σ → Nat} {state : σ} {fuel : Nat}

theorem loop_again {next : σ} (first : turn state = .ok (.again next)) :
    loop turn (fuel + 1) state = loop turn fuel next := by
  rw [loop, first]
  rfl

theorem loop_done {result : ρ} (first : turn state = .ok (.done result)) :
    loop turn (fuel + 1) state = .ok result := by
  rw [loop, first]
  rfl

/-- What one turn has to do for the loop to end well. -/
def TurnKeeps (inv : σ → Prop) (measure : σ → Nat) (post : ρ → Prop) (state : σ) :
    Turn ρ σ → Prop
  | .done result => post result
  | .again next => inv next ∧ measure next < measure state

theorem returns_loop (each : ∀ s, inv s → Returns (turn s) (TurnKeeps inv measure post s))
    (start : inv state) (enough : measure state < fuel) : Returns (loop turn fuel state) post := by
  induction fuel generalizing state with
  | zero => omega
  | succ fuel ih =>
    apply returns_bind (each state start)
    intro ended kept
    cases ended with
    | done result => exact returns_pure kept
    | again next =>
      obtain ⟨holds, smaller⟩ := kept
      exact ih holds (by omega)

/-- A fold whose step keeps `inv`, where `inv` sees the prefix processed so far. -/
theorem foldl_prefix {α β : Type} {f : β → α → β} {xs : List α} {init : β} (inv : List α → β → Prop)
    (start : inv [] init)
    (step : ∀ before x acc, x ∈ xs → inv before acc → inv (before ++ [x]) (f acc x)) :
    inv xs (xs.foldl f init) := by
  have walk : ∀ (rest before : List α) (acc : β), (∀ x ∈ rest, x ∈ xs) → inv before acc →
      inv (before ++ rest) (rest.foldl f acc) := by
    intro rest
    induction rest with
    | nil =>
      intro before acc _ holds
      rw [List.append_nil]
      exact holds
    | cons x rest ih =>
      intro before acc inside holds
      obtain ⟨now, later⟩ := List.forall_mem_cons.mp inside
      have kept := ih (before ++ [x]) (f acc x) later (step before x acc now holds)
      rwa [List.append_assoc] at kept
  exact walk xs [] init (fun _ member => member) start

end Nca.Lib
