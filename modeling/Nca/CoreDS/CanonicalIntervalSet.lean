import Nca.Lib.Python

/-!
Interval sets of integers: a sorted list of intervals of which no two overlap or touch. The
insertion finds its place with two binary searches and splices the list.
-/

namespace Nca.CoreDS
open Lib Python

structure Interval where
  start : Int
  end_ : Int
  deriving DecidableEq, Repr

namespace Interval

def overlaps (self other : Interval) : Bool :=
  decide (other.end_ ≥ self.start ∧ other.start ≤ self.end_)

def touches (self other : Interval) : Bool :=
  if self.start > other.end_ then decide (self.start = other.end_ + 1)
  else if other.start > self.end_ then decide (other.start = self.end_ + 1)
  else false

def isSubset (self other : Interval) : Bool :=
  decide (other.start ≤ self.start ∧ other.end_ ≥ self.end_)

def and (self other : Interval) : List Interval :=
  let max_start := max self.start other.start
  let min_end := min self.end_ other.end_
  if min_end < max_start then [] else [⟨max_start, min_end⟩]

def sub (self other : Interval) : List Interval :=
  if !self.overlaps other then [self]
  else if self.isSubset other then []
  else if self.start < other.start ∧ self.end_ > other.end_ then
    [⟨self.start, other.start - 1⟩, ⟨other.end_ + 1, self.end_⟩]
  else if self.start < other.start then [⟨self.start, min self.end_ (other.start - 1)⟩]
  else [⟨max self.start (other.end_ + 1), self.end_⟩]

end Interval

structure CanonicalIntervalSet where
  interval_set : List Interval := []
  deriving DecidableEq, Repr

namespace CanonicalIntervalSet

def bool (self : CanonicalIntervalSet) : Bool := !self.interval_set.isEmpty

def len (self : CanonicalIntervalSet) : Nat := self.interval_set.length

def and (self other : CanonicalIntervalSet) : CanonicalIntervalSet :=
  ⟨self.interval_set.flatMap fun self_interval =>
    other.interval_set.flatMap fun other_interval => self_interval.and other_interval⟩

/-- The loop of `find_interval_left`: `inl` is its early return, `inr` the final `low`. -/
def findIntervalLeftLoop (xs : List Interval) (interval : Interval) :
    Nat → Nat → Nat → Except Failure (Nat ⊕ Nat)
  | 0, _, _ => .error .diverged
  | fuel + 1, low, high =>
    if low = high then pure (.inr low)
    else do
      let mid := (low + high) / 2
      let at_mid ← item xs mid
      if at_mid.end_ < interval.start - 1 then
        let last ← if mid = xs.length - 1 then pure true else do
          let next ← item xs (mid + 1)
          pure (decide (next.end_ ≥ interval.start - 1))
        if last then pure (.inl mid) else findIntervalLeftLoop xs interval fuel (mid + 1) high
      else findIntervalLeftLoop xs interval fuel low mid

def findIntervalLeft (self : CanonicalIntervalSet) (interval : Interval) : Except Failure Int :=
  if !self.bool then pure (-1)
  else do
    match ← findIntervalLeftLoop self.interval_set interval (self.len + 1) 0 self.len with
    | .inl mid => pure mid
    | .inr low =>
      let low := if low = self.len then low - 1 else low
      let at_low ← item self.interval_set low
      if at_low.end_ ≥ interval.start - 1 then pure (-1) else pure low

/-- The loop of `find_interval_right`: `inl` is its early return, `inr` the final `low`. -/
def findIntervalRightLoop (xs : List Interval) (interval : Interval) :
    Nat → Nat → Nat → Except Failure (Nat ⊕ Nat)
  | 0, _, _ => .error .diverged
  | fuel + 1, low, high =>
    if low = high then pure (.inr low)
    else do
      let mid := (low + high) / 2
      let at_mid ← item xs mid
      if at_mid.start > interval.end_ + 1 then
        let first ← if mid = 0 then pure true else do
          let previous ← item xs (mid - 1)
          pure (decide (previous.start ≤ interval.end_ + 1))
        if first then pure (.inl mid) else findIntervalRightLoop xs interval fuel low mid
      else findIntervalRightLoop xs interval fuel (mid + 1) high

def findIntervalRight (self : CanonicalIntervalSet) (interval : Interval) : Except Failure Int :=
  if !self.bool then pure (-1)
  else do
    match ← findIntervalRightLoop self.interval_set interval (self.len + 1) 0 self.len with
    | .inl mid => pure mid
    | .inr low =>
      let low := if low = self.len then low - 1 else low
      let at_low ← item self.interval_set low
      if at_low.start ≤ interval.end_ + 1 then pure (-1) else pure low

def addInterval (self : CanonicalIntervalSet) (interval_to_add : Interval) :
    Except Failure CanonicalIntervalSet :=
  if !self.bool then pure ⟨self.interval_set ++ [interval_to_add]⟩
  else do
    let left ← self.findIntervalLeft interval_to_add
    let right ← self.findIntervalRight interval_to_add
    if left ≥ 0 ∧ right ≥ 0 ∧ right - left = 1 then
      pure ⟨insert self.interval_set (left + 1).toNat interval_to_add⟩
    else if left = -1 ∧ right = 0 then
      pure ⟨insert self.interval_set 0 interval_to_add⟩
    else if right = -1 ∧ left = self.len - 1 then
      pure ⟨self.interval_set ++ [interval_to_add]⟩
    else do
      let left := left + 1
      let right := if right ≥ 0 then right - 1 else (self.len : Int) - 1
      let at_left ← item self.interval_set left
      let at_right ← item self.interval_set right
      let left_overlaps := at_left.overlaps interval_to_add || at_left.touches interval_to_add
      let right_overlaps := at_right.overlaps interval_to_add || at_right.touches interval_to_add
      let new_interval_start :=
        if left_overlaps then min interval_to_add.start at_left.start else interval_to_add.start
      let new_interval_end :=
        if right_overlaps then max interval_to_add.end_ at_right.end_ else interval_to_add.end_
      let kept := delSlice self.interval_set left.toNat (right + 1).toNat
      pure ⟨insert kept left.toNat ⟨new_interval_start, new_interval_end⟩⟩

def addHole (self : CanonicalIntervalSet) (hole : Interval) : CanonicalIntervalSet :=
  ⟨self.interval_set.flatMap fun interval => interval.sub hole⟩

/-- `self |= other`. -/
def or (self other : CanonicalIntervalSet) : Except Failure CanonicalIntervalSet :=
  other.interval_set.foldlM addInterval self

/-- `self -= other`. -/
def sub (self other : CanonicalIntervalSet) : CanonicalIntervalSet :=
  other.interval_set.foldl addHole self

/-- The loop of `contained_in` over the intervals of `self`. -/
def containedInLoop (other : CanonicalIntervalSet) : List Interval → Except Failure Bool
  | [] => pure true
  | self_interval :: rest => do
    let left ← other.findIntervalLeft self_interval
    if left = (other.len : Int) - 1 then pure false
    else do
      let candidate ← item other.interval_set (left + 1)
      if !self_interval.isSubset candidate then pure false else containedInLoop other rest

def containedIn (self other : CanonicalIntervalSet) : Except Failure Bool :=
  match self.interval_set, other.interval_set with
  | [self_interval], [other_interval] => pure (self_interval.isSubset other_interval)
  | _, _ => containedInLoop other self.interval_set

/-- Whether an interval of `self` overlaps one of `other`. -/
def overlaps (self other : CanonicalIntervalSet) : Bool :=
  self.interval_set.any fun self_interval =>
    other.interval_set.any fun other_interval => self_interval.overlaps other_interval

def getIntervalSet (start end_ : Int) : Except Failure CanonicalIntervalSet :=
  addInterval {} ⟨start, end_⟩

/-- `item in self`. -/
def contains (self : CanonicalIntervalSet) (item : Int) : Except Failure Bool := do
  (← getIntervalSet item item).containedIn self

end CanonicalIntervalSet

end Nca.CoreDS
