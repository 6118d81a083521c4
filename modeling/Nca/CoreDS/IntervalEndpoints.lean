import Nca.CoreDS.IntervalSearch
import Mathlib.Order.Defs.LinearOrder
import Mathlib.Order.Lattice

/-!
Interval sets over any type of ends that has an order, `+ 1` and `- 1`. The steps need not be exact:
at the last or the first of a family of ends they may stay where they are. If the ends are placed on
the integers with gaps between the families, then the sets of intervals of integers follow.
-/

namespace Nca.CoreDS
open Lib Python

/-- What the ends of intervals support: an order, `+ 1` and `- 1`. -/
class Endpoint (α : Type) extends LinearOrder α where
  plusOne : α → α
  minusOne : α → α

export Endpoint (plusOne minusOne)

structure IntervalOf (α : Type) where
  start : α
  end_ : α
  deriving DecidableEq, Repr

structure CanonicalIntervalSetOf (α : Type) where
  interval_set : List (IntervalOf α) := []
  deriving DecidableEq, Repr

variable {α : Type} [Endpoint α]

namespace IntervalOf

def overlaps (self other : IntervalOf α) : Bool :=
  decide (other.end_ ≥ self.start ∧ other.start ≤ self.end_)

def touches (self other : IntervalOf α) : Bool :=
  if self.start > other.end_ then decide (self.start = plusOne other.end_)
  else if other.start > self.end_ then decide (other.start = plusOne self.end_)
  else false

def isSubset (self other : IntervalOf α) : Bool :=
  decide (other.start ≤ self.start ∧ other.end_ ≥ self.end_)

def and (self other : IntervalOf α) : List (IntervalOf α) :=
  let max_start := max self.start other.start
  let min_end := min self.end_ other.end_
  if min_end < max_start then [] else [⟨max_start, min_end⟩]

def sub (self other : IntervalOf α) : List (IntervalOf α) :=
  if !self.overlaps other then [self]
  else if self.isSubset other then []
  else if self.start < other.start ∧ self.end_ > other.end_ then
    [⟨self.start, minusOne other.start⟩, ⟨plusOne other.end_, self.end_⟩]
  else if self.start < other.start then [⟨self.start, min self.end_ (minusOne other.start)⟩]
  else [⟨max self.start (plusOne other.end_), self.end_⟩]

end IntervalOf

namespace CanonicalIntervalSetOf

def bool (self : CanonicalIntervalSetOf α) : Bool := !self.interval_set.isEmpty

def len (self : CanonicalIntervalSetOf α) : Nat := self.interval_set.length

def and (self other : CanonicalIntervalSetOf α) : CanonicalIntervalSetOf α :=
  ⟨self.interval_set.flatMap fun self_interval =>
    other.interval_set.flatMap fun other_interval => self_interval.and other_interval⟩

/-- The loop of `find_interval_left`: `inl` is its early return, `inr` the final `low`. -/
def findIntervalLeftLoop (xs : List (IntervalOf α)) (interval : IntervalOf α) :
    Nat → Nat → Nat → Except Failure (Nat ⊕ Nat)
  | 0, _, _ => .error .diverged
  | fuel + 1, low, high =>
    if low = high then pure (.inr low)
    else do
      let mid := (low + high) / 2
      let at_mid ← item xs mid
      if at_mid.end_ < minusOne interval.start then
        let last ← if mid = xs.length - 1 then pure true else do
          let next ← item xs (mid + 1)
          pure (decide (next.end_ ≥ minusOne interval.start))
        if last then pure (.inl mid) else findIntervalLeftLoop xs interval fuel (mid + 1) high
      else findIntervalLeftLoop xs interval fuel low mid

def findIntervalLeft (self : CanonicalIntervalSetOf α) (interval : IntervalOf α) :
    Except Failure Int :=
  if !self.bool then pure (-1)
  else do
    match ← findIntervalLeftLoop self.interval_set interval (self.len + 1) 0 self.len with
    | .inl mid => pure mid
    | .inr low =>
      let low := if low = self.len then low - 1 else low
      let at_low ← item self.interval_set low
      if at_low.end_ ≥ minusOne interval.start then pure (-1) else pure low

/-- The loop of `find_interval_right`: `inl` is its early return, `inr` the final `low`. -/
def findIntervalRightLoop (xs : List (IntervalOf α)) (interval : IntervalOf α) :
    Nat → Nat → Nat → Except Failure (Nat ⊕ Nat)
  | 0, _, _ => .error .diverged
  | fuel + 1, low, high =>
    if low = high then pure (.inr low)
    else do
      let mid := (low + high) / 2
      let at_mid ← item xs mid
      if at_mid.start > plusOne interval.end_ then
        let first ← if mid = 0 then pure true else do
          let previous ← item xs (mid - 1)
          pure (decide (previous.start ≤ plusOne interval.end_))
        if first then pure (.inl mid) else findIntervalRightLoop xs interval fuel low mid
      else findIntervalRightLoop xs interval fuel (mid + 1) high

def findIntervalRight (self : CanonicalIntervalSetOf α) (interval : IntervalOf α) :
    Except Failure Int :=
  if !self.bool then pure (-1)
  else do
    match ← findIntervalRightLoop self.interval_set interval (self.len + 1) 0 self.len with
    | .inl mid => pure mid
    | .inr low =>
      let low := if low = self.len then low - 1 else low
      let at_low ← item self.interval_set low
      if at_low.start ≤ plusOne interval.end_ then pure (-1) else pure low

def addInterval (self : CanonicalIntervalSetOf α) (interval_to_add : IntervalOf α) :
    Except Failure (CanonicalIntervalSetOf α) :=
  if !self.bool then pure ⟨self.interval_set ++ [interval_to_add]⟩
  else do
    let left ← self.findIntervalLeft interval_to_add
    let right ← self.findIntervalRight interval_to_add
    if left ≥ 0 ∧ right ≥ 0 ∧ right - left = 1 then
      pure ⟨insert self.interval_set (left + 1).toNat interval_to_add⟩
    else if left = -1 ∧ right = 0 then
      pure ⟨insert self.interval_set 0 interval_to_add⟩
    else if right = -1 ∧ left = self.len - 1 then
      pure ⟨self.interval_set ++ [interval_to_add]⟩
    else do
      let left := left + 1
      let right := if right ≥ 0 then right - 1 else (self.len : Int) - 1
      let at_left ← item self.interval_set left
      let at_right ← item self.interval_set right
      let left_overlaps := at_left.overlaps interval_to_add || at_left.touches interval_to_add
      let right_overlaps := at_right.overlaps interval_to_add || at_right.touches interval_to_add
      let new_interval_start :=
        if left_overlaps then min interval_to_add.start at_left.start else interval_to_add.start
      let new_interval_end :=
        if right_overlaps then max interval_to_add.end_ at_right.end_ else interval_to_add.end_
      let kept := delSlice self.interval_set left.toNat (right + 1).toNat
      pure ⟨insert kept left.toNat ⟨new_interval_start, new_interval_end⟩⟩

def addHole (self : CanonicalIntervalSetOf α) (hole : IntervalOf α) : CanonicalIntervalSetOf α :=
  ⟨self.interval_set.flatMap fun interval => interval.sub hole⟩

/-- `self |= other`. -/
def or (self other : CanonicalIntervalSetOf α) : Except Failure (CanonicalIntervalSetOf α) :=
  other.interval_set.foldlM addInterval self

/-- `self -= other`. -/
def sub (self other : CanonicalIntervalSetOf α) : CanonicalIntervalSetOf α :=
  other.interval_set.foldl addHole self

end CanonicalIntervalSetOf
end Nca.CoreDS
