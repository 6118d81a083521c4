import Nca.Lib.Returns

/-!
The part of Python the models rely on: the errors a statement can raise, assertions, and list
indexing with its wrap-around of negative indices.
-/

namespace Nca.Lib.Python

variable {α : Type}

/-- How a statement can fail. `diverged` and `recursion` stand for a loop or a recursion that
exceeds the bound the model gives it. -/
inductive Failure where
  | assertion
  | index
  | key
  | attribute
  | recursion
  | diverged
  | raised (message : String)
  deriving DecidableEq, Repr

/-- `assert c`. -/
def assert (c : Prop) [Decidable c] : Except Failure Unit :=
  if c then .ok () else .error .assertion

/-- `xs[i]`. -/
def item (xs : List α) (i : Int) : Except Failure α :=
  let j := if i < 0 then i + xs.length else i
  if j < 0 then .error .index
  else match xs[j.toNat]? with
    | some x => .ok x
    | none => .error .index

/-- `xs.insert(i, x)` for an index that is not negative. -/
def insert (xs : List α) (i : Nat) (x : α) : List α :=
  xs.take i ++ x :: xs.drop i

/-- `del xs[low:high]` for indices that are not negative. -/
def delSlice (xs : List α) (low high : Nat) : List α :=
  xs.take low ++ xs.drop high

/-- `range(start, stop)`. -/
def range (start stop : Int) : List Int := (List.range (stop - start).toNat).map fun (n : Nat) => start + (n : Int)

theorem mem_range {start stop n : Int} : n ∈ range start stop ↔ start ≤ n ∧ n < stop := by
  unfold range
  rw [List.mem_map]
  constructor
  · intro ⟨k, listed, same⟩
    have bound := List.mem_range.mp listed
    omega
  · intro inside
    refine ⟨(n - start).toNat, List.mem_range.mpr ?_, ?_⟩
    · omega
    · omega

theorem assert_true {c : Prop} [Decidable c] (h : c) : assert c = .ok () := if_pos h

theorem assert_bind {β : Type} {c : Prop} [Decidable c] (h : c) (f : Unit → Except Failure β) :
    (assert c >>= f) = f () := by
  rw [assert_true h]
  rfl

theorem item_nat {xs : List α} {i : Nat} (bound : i < xs.length) : item xs i = .ok xs[i] := by
  have small : ¬ ((i : Int) < 0) := by omega
  simp [item, small, List.getElem?_eq_getElem bound]

theorem item_found {xs : List α} {i : Nat} {x : α} (found : xs[i]? = some x) :
    item xs i = .ok x := by
  obtain ⟨bound, rfl⟩ := List.getElem?_eq_some_iff.mp found
  exact item_nat bound

theorem item_zero (x : α) (xs : List α) : item (x :: xs) 0 = .ok x := by
  simp [item]

theorem item_middle (before after : List α) (x : α) {i : Int} (h : i = before.length) :
    item (before ++ x :: after) i = .ok x := by
  subst h
  rw [item_nat (by simp)]
  simp

theorem item_map {β : Type} (xs : List α) (f : α → β) (i : Int) :
    item (xs.map f) i = (item xs i).map f := by
  unfold item
  rw [List.length_map]
  dsimp only
  generalize (if i < 0 then i + (xs.length : Int) else i) = j
  rw [List.getElem?_map]
  split
  · rfl
  · cases xs[j.toNat]? with
    | none => rfl
    | some x => rfl

theorem insert_append (before after : List α) (x : α) :
    insert (before ++ after) before.length x = before ++ x :: after := by
  simp [insert]

theorem delSlice_append (before cut after : List α) :
    delSlice (before ++ (cut ++ after)) before.length (before.length + cut.length) =
      before ++ after := by
  have whole : before.length + cut.length = (before ++ cut).length := by simp
  rw [delSlice, List.take_left, ← List.append_assoc, whole, List.drop_left]

end Nca.Lib.Python
