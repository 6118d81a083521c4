import Nca.CoreDS.IntervalSetLaws

/-!
The binary searches of the interval set, and the operations that use them. A sorted list falls
into the intervals before the searched one, those that overlap or touch it, and those after it;
the searches return the two borders.
-/

namespace Nca.CoreDS
open Lib Python

theorem exists_split {α : Type} {p : α → Prop} [DecidablePred p] (xs : List α)
    (down : xs.Pairwise fun a b => p b → p a) :
    ∃ before after, xs = before ++ after ∧ (∀ a ∈ before, p a) ∧ ∀ a ∈ after, ¬ p a := by
  induction xs with
  | nil => exact ⟨[], [], rfl, by simp, by simp⟩
  | cons x xs ih =>
    obtain ⟨head, tail⟩ := List.pairwise_cons.mp down
    by_cases holds : p x
    · obtain ⟨before, after, rfl, yes, no⟩ := ih tail
      refine ⟨x :: before, after, rfl, ?_, no⟩
      intro a member
      rcases List.mem_cons.mp member with rfl | later
      · exact holds
      · exact yes a later
    · refine ⟨[], x :: xs, rfl, by simp, ?_⟩
      intro a member
      rcases List.mem_cons.mp member with rfl | later
      · exact holds
      · exact fun pa => holds (head a later pa)

theorem split_index {α : Type} {p : α → Prop} {before after : List α}
    (yes : ∀ a ∈ before, p a) (no : ∀ a ∈ after, ¬ p a) (i : Nat)
    (bound : i < (before ++ after).length) : p (before ++ after)[i] ↔ i < before.length := by
  by_cases inside : i < before.length
  · rw [List.getElem_append_left inside]
    exact ⟨fun _ => inside, fun _ => yes _ (List.getElem_mem inside)⟩
  · rw [List.getElem_append_right (by omega)]
    refine ⟨fun h => (no _ (List.getElem_mem _) h).elim, fun h => (inside h).elim⟩

/-- The place of the last element with a property, and `-1` when there is none. -/
def IsLast {α : Type} (p : α → Prop) (xs : List α) (i : Int) : Prop :=
  (i = -1 ∧ ∀ a ∈ xs, ¬ p a) ∨
    ∃ n : Nat, i = n ∧ (∃ a, xs[n]? = some a ∧ p a) ∧ ∀ (m : Nat) (a : α), xs[m]? = some a → p a → m ≤ n

/-- The place of the first element with a property, and `-1` when there is none. -/
def IsFirst {α : Type} (p : α → Prop) (xs : List α) (i : Int) : Prop :=
  (i = -1 ∧ ∀ a ∈ xs, ¬ p a) ∨
    ∃ n : Nat, i = n ∧ (∃ a, xs[n]? = some a ∧ p a) ∧ ∀ (m : Nat) (a : α), xs[m]? = some a → p a → n ≤ m

theorem isLast_split {α : Type} {p : α → Prop} {before after : List α}
    (yes : ∀ a ∈ before, p a) (no : ∀ a ∈ after, ¬ p a) :
    IsLast p (before ++ after) ((before.length : Int) - 1) := by
  cases size : before.length with
  | zero =>
    obtain rfl := List.length_eq_zero_iff.mp size
    exact .inl ⟨by omega, no⟩
  | succ n =>
    have bound : n < (before ++ after).length := by
      rw [List.length_append]
      omega
    refine .inr ⟨n, by omega, ⟨_, List.getElem?_eq_getElem bound, ?_⟩, ?_⟩
    · exact (split_index yes no n bound).mpr (by omega)
    · intro m a found holds
      obtain ⟨inside, rfl⟩ := List.getElem?_eq_some_iff.mp found
      have early := (split_index yes no m inside).mp holds
      omega

theorem isFirst_split {α : Type} {p : α → Prop} {before after : List α}
    (no : ∀ a ∈ before, ¬ p a) (yes : ∀ a ∈ after, p a) :
    IsFirst p (before ++ after) (if after = [] then -1 else (before.length : Int)) := by
  cases after with
  | nil => exact .inl ⟨if_pos rfl, by simpa using no⟩
  | cons first rest =>
    rw [if_neg (List.cons_ne_nil _ _)]
    refine .inr ⟨before.length, rfl, ⟨first, by simp, yes first List.mem_cons_self⟩, ?_⟩
    intro m a found holds
    by_cases early : m < before.length
    · rw [List.getElem?_append_left early] at found
      exact absurd holds (no a (List.mem_of_getElem? found))
    · omega

namespace CanonicalIntervalSet
open CoreDS.Interval

/-- `a` lies before `b` without touching it. -/
abbrev Lower (b a : Interval) : Prop := a.end_ < b.start - 1

/-- `a` does not lie after `b`, or touches it. -/
abbrev Reaches (b a : Interval) : Prop := a.start ≤ b.end_ + 1

/-- Until it returns, every interval up to `low` is lower and none from `high` on is. -/
theorem findIntervalLeftLoop_eq {interval : Interval} {before after : List Interval}
    (lower : ∀ a ∈ before, Lower interval a) (rest : ∀ a ∈ after, ¬ Lower interval a)
    (fuel low high : Nat) (order : low ≤ high) (top : high ≤ (before ++ after).length)
    (right : before.length ≤ high) (left : low = 0 ∨ low < before.length)
    (enough : high - low < fuel) :
    findIntervalLeftLoop (before ++ after) interval fuel low high =
      .ok (if before = [] then .inr 0 else .inl (before.length - 1)) := by
  induction fuel generalizing low high with
  | zero => omega
  | succ fuel ih =>
    unfold findIntervalLeftLoop
    by_cases met : low = high
    · rw [if_pos met]
      have empty : before.length = 0 := by omega
      rw [if_pos (List.length_eq_zero_iff.mp empty)]
      have : low = 0 := by omega
      rw [this]
      rfl
    · rw [if_neg met]
      have midBound : (low + high) / 2 < (before ++ after).length := by omega
      have decides := split_index lower rest _ midBound
      simp only [item_nat midBound, bind, Except.bind]
      by_cases isLower : (before ++ after)[(low + high) / 2].end_ < interval.start - 1
      · have inside := decides.mp isLower
        have some : before ≠ [] := by
          rintro rfl
          simp at inside
        rw [if_pos isLower]
        by_cases final : (low + high) / 2 = (before ++ after).length - 1
        · simp only [if_pos final, pure, Except.pure, ↓reduceIte, if_neg some]
          have : before.length ≤ (before ++ after).length := by simp
          congr 2
          omega
        · have nextBound : (low + high) / 2 + 1 < (before ++ after).length := by omega
          have decidesNext := split_index lower rest _ nextBound
          have cast : (((low + high) / 2 : Nat) : Int) + 1 = (((low + high) / 2 + 1 : Nat) : Int) := by
            omega
          simp only [if_neg final, cast, item_nat nextBound, pure, Except.pure, decide_eq_true_eq]
          by_cases stop : (before ++ after)[(low + high) / 2 + 1].end_ ≥ interval.start - 1
          · have outside : ¬ (low + high) / 2 + 1 < before.length := fun h => by
              have := decidesNext.mpr h
              omega
            rw [if_pos stop, if_neg some]
            congr 2
            omega
          · have inner := decidesNext.mp (by omega)
            rw [if_neg stop]
            exact ih _ _ (by omega) top right (Or.inr inner) (by omega)
      · have outside : ¬ (low + high) / 2 < before.length := fun h => isLower (decides.mpr h)
        rw [if_neg isLower]
        exact ih _ _ (by omega) (by omega) (by omega) left (by omega)

theorem findIntervalLeft_eq {interval : Interval} {before after : List Interval}
    (lower : ∀ a ∈ before, Lower interval a) (rest : ∀ a ∈ after, ¬ Lower interval a) :
    findIntervalLeft ⟨before ++ after⟩ interval = .ok ((before.length : Int) - 1) := by
  unfold findIntervalLeft
  cases whole : before ++ after with
  | nil =>
    obtain ⟨rfl, rfl⟩ := List.append_eq_nil_iff.mp whole
    rfl
  | cons x xs =>
    have loop := findIntervalLeftLoop_eq lower rest ((before ++ after).length + 1) 0
      (before ++ after).length (by omega) (by omega) (by simp) (Or.inl rfl) (by omega)
    rw [whole] at loop
    simp only [bool, len, List.isEmpty_cons, Bool.not_false, Bool.not_true, Bool.false_eq_true,
      ↓reduceIte, loop, bind, Except.bind]
    by_cases empty : before = []
    · subst empty
      have notLower := rest x (by rw [show after = x :: xs from whole]; exact List.mem_cons_self)
      have reach : x.end_ ≥ interval.start - 1 := by
        unfold Lower at notLower
        omega
      simp [item, pure, Except.pure, reach]
    · have : 0 < before.length := List.length_pos_iff.mpr empty
      simp only [if_neg empty, pure, Except.pure]
      congr 1
      omega

/-- Until it returns, no interval up to `low` lies beyond and every one from `high` on does. -/
theorem findIntervalRightLoop_eq {interval : Interval} {before after : List Interval}
    (reach : ∀ a ∈ before, Reaches interval a) (beyond : ∀ a ∈ after, ¬ Reaches interval a)
    (fuel low high : Nat) (order : low ≤ high) (top : high ≤ (before ++ after).length)
    (left : low ≤ before.length)
    (right : high = (before ++ after).length ∨ before.length < high)
    (enough : high - low < fuel) :
    findIntervalRightLoop (before ++ after) interval fuel low high =
      .ok (if after = [] then .inr before.length else .inl before.length) := by
  induction fuel generalizing low high with
  | zero => omega
  | succ fuel ih =>
    have total : (before ++ after).length = before.length + after.length := List.length_append
    unfold findIntervalRightLoop
    by_cases met : low = high
    · have empty : after.length = 0 := by omega
      rw [if_pos met, if_pos (List.length_eq_zero_iff.mp empty)]
      have : low = before.length := by omega
      rw [this]
      rfl
    · rw [if_neg met]
      have midBound : (low + high) / 2 < (before ++ after).length := by omega
      have decides := split_index reach beyond _ midBound
      simp only [item_nat midBound, bind, Except.bind]
      by_cases isBeyond : (before ++ after)[(low + high) / 2].start > interval.end_ + 1
      · have outside : ¬ (low + high) / 2 < before.length := fun h => by
          have := decides.mpr h
          omega
        have some : 0 < after.length := by omega
        have some : after ≠ [] := List.length_pos_iff.mp some
        rw [if_pos isBeyond]
        by_cases first : (low + high) / 2 = 0
        · simp only [if_pos first, pure, Except.pure, ↓reduceIte, if_neg some]
          congr 2
          omega
        · have previousBound : (low + high) / 2 - 1 < (before ++ after).length := by omega
          have decidesPrevious := split_index reach beyond _ previousBound
          have cast : (((low + high) / 2 : Nat) : Int) - 1 = (((low + high) / 2 - 1 : Nat) : Int) := by
            omega
          simp only [if_neg first, cast, item_nat previousBound, pure, Except.pure,
            decide_eq_true_eq]
          by_cases stop : (before ++ after)[(low + high) / 2 - 1].start ≤ interval.end_ + 1
          · have inside := decidesPrevious.mp stop
            rw [if_pos stop, if_neg some]
            congr 2
            omega
          · have outer : ¬ (low + high) / 2 - 1 < before.length := fun h =>
              stop (decidesPrevious.mpr h)
            rw [if_neg stop]
            exact ih _ _ (by omega) (by omega) left (Or.inr (by omega)) (by omega)
      · have inside := decides.mp (by omega)
        rw [if_neg isBeyond]
        exact ih _ _ (by omega) top (by omega) right (by omega)

theorem findIntervalRight_eq {interval : Interval} {before after : List Interval}
    (reach : ∀ a ∈ before, Reaches interval a) (beyond : ∀ a ∈ after, ¬ Reaches interval a) :
    findIntervalRight ⟨before ++ after⟩ interval =
      .ok (if after = [] then -1 else (before.length : Int)) := by
  unfold findIntervalRight
  cases whole : before ++ after with
  | nil =>
    obtain ⟨rfl, rfl⟩ := List.append_eq_nil_iff.mp whole
    rfl
  | cons x xs =>
    have loop := findIntervalRightLoop_eq reach beyond ((before ++ after).length + 1) 0
      (before ++ after).length (by omega) (by omega) (by omega) (Or.inl rfl) (by omega)
    have total : (before ++ after).length = before.length + after.length := List.length_append
    rw [whole] at loop
    simp only [bool, len, List.isEmpty_cons, Bool.not_false, Bool.not_true, Bool.false_eq_true,
      ↓reduceIte, loop, bind, Except.bind]
    by_cases empty : after = []
    · subst empty
      rw [List.append_nil] at whole
      have bound : before.length - 1 < before.length := by
        rw [whole]
        simp
      have lastReaches := reach _ (List.getElem_mem bound)
      rw [← whole]
      simp only [↓reduceIte, item_nat bound, if_pos lastReaches, pure, Except.pure]
    · simp only [if_neg empty, pure, Except.pure]

theorem lower_down {xs : List Interval} (canonical : Canonical ⟨xs⟩) (interval : Interval) :
    xs.Pairwise fun a b => Lower interval b → Lower interval a := by
  refine List.Pairwise.imp_of_mem ?_ canonical.sorted
  intro a b _ hb gap low
  have proper : b.start ≤ b.end_ := canonical.proper b hb
  unfold Before at gap
  unfold Lower at low ⊢
  omega

theorem reaches_down {xs : List Interval} (canonical : Canonical ⟨xs⟩) (interval : Interval) :
    xs.Pairwise fun a b => Reaches interval b → Reaches interval a := by
  refine List.Pairwise.imp_of_mem ?_ canonical.sorted
  intro a b ha _ gap low
  have proper : a.start ≤ a.end_ := canonical.proper a ha
  unfold Before at gap
  unfold Reaches at low ⊢
  omega

/-- Both searches return the borders of the intervals that meet the searched one. -/
theorem findInterval_indices (s : CanonicalIntervalSet) (interval : Interval) (canonical : Canonical s) :
    (∃ i, s.findIntervalLeft interval = .ok i ∧
      IsLast (fun a => a.end_ + 1 < interval.start) s.interval_set i) ∧
    ∃ i, s.findIntervalRight interval = .ok i ∧
      IsFirst (fun a => interval.end_ + 1 < a.start) s.interval_set i := by
  obtain ⟨xs⟩ := s
  constructor
  · obtain ⟨before, after, rfl, lower, rest⟩ := exists_split xs (lower_down canonical interval)
    refine ⟨_, findIntervalLeft_eq lower rest, isLast_split ?_ ?_⟩
    · intro a member
      have low := lower a member
      unfold Lower at low
      omega
    · intro a member
      have high := rest a member
      unfold Lower at high
      omega
  · obtain ⟨before, after, rfl, reach, beyond⟩ := exists_split xs (reaches_down canonical interval)
    refine ⟨_, findIntervalRight_eq reach beyond, isFirst_split ?_ ?_⟩
    · intro a member
      have low := reach a member
      unfold Reaches at low
      omega
    · intro a member
      have high := beyond a member
      unfold Reaches at high
      omega

/-- An interval between two of three. -/
def threeIntervals : CanonicalIntervalSet := ⟨[⟨1, 2⟩, ⟨5, 6⟩, ⟨10, 10⟩]⟩

theorem threeIntervals_indices :
    (∃ i, threeIntervals.findIntervalLeft ⟨8, 8⟩ = .ok i ∧
      IsLast (fun a => a.end_ + 1 < 8) threeIntervals.interval_set i) ∧
    ∃ i, threeIntervals.findIntervalRight ⟨8, 8⟩ = .ok i ∧
      IsFirst (fun a => 8 + 1 < a.start) threeIntervals.interval_set i :=
  findInterval_indices threeIntervals ⟨8, 8⟩
    ⟨by simp [threeIntervals, Proper], by simp [threeIntervals, Before]⟩

example : threeIntervals.findIntervalLeft ⟨8, 8⟩ = .ok 1 ∧ threeIntervals.findIntervalRight ⟨8, 8⟩ = .ok 2 := by
  decide

/-- The sorted list around an interval: what lies before it, what meets it, what lies after. -/
structure Around (xs : List Interval) (interval : Interval)
    (before meeting after : List Interval) : Prop where
  whole : xs = before ++ (meeting ++ after)
  lower : ∀ a ∈ before, Lower interval a
  meets : ∀ a ∈ meeting, ¬ Lower interval a ∧ Reaches interval a
  beyond : ∀ a ∈ after, ¬ Reaches interval a

theorem around_exists {xs : List Interval} (canonical : Canonical ⟨xs⟩) (interval : Interval) :
    ∃ before meeting after, Around xs interval before meeting after := by
  obtain ⟨before, tail, rfl, lower, rest⟩ := exists_split xs (lower_down canonical interval)
  obtain ⟨meeting, after, rfl, reach, beyond⟩ :=
    exists_split tail (List.pairwise_append.mp (reaches_down canonical interval)).2.1
  refine ⟨before, meeting, after, rfl, lower, ?_, beyond⟩
  intro a member
  exact ⟨rest a (List.mem_append_left _ member), reach a member⟩

theorem around_searches {xs before meeting after : List Interval} {interval : Interval}
    (proper : interval.Proper) (canonical : Canonical ⟨xs⟩)
    (around : Around xs interval before meeting after) :
    findIntervalLeft ⟨xs⟩ interval = .ok ((before.length : Int) - 1) ∧
      findIntervalRight ⟨xs⟩ interval =
        .ok (if after = [] then -1 else ((before.length + meeting.length : Nat) : Int)) := by
  obtain ⟨rfl, lower, meets, beyond⟩ := around
  unfold Proper at proper
  constructor
  · refine findIntervalLeft_eq lower ?_
    intro a member
    rcases List.mem_append.mp member with inside | outside
    · exact (meets a inside).1
    · have far := beyond a outside
      have whole : a.start ≤ a.end_ := canonical.proper a (by simp [outside])
      unfold Reaches at far
      unfold Lower
      omega
  · have reach : ∀ a ∈ before ++ meeting, Reaches interval a := ?_
    · rw [← List.append_assoc, findIntervalRight_eq reach beyond, List.length_append]
    intro a member
    rcases List.mem_append.mp member with outside | inside
    · have near := lower a outside
      have whole : a.start ≤ a.end_ := canonical.proper a (by simp [outside])
      unfold Lower at near
      unfold Reaches
      omega
    · exact (meets a inside).2

/-- The interval that replaces the ones it meets. -/
def merged (interval : Interval) : List Interval → Interval
  | [] => interval
  | first :: rest =>
    ⟨min interval.start first.start,
      max interval.end_ ((first :: rest).getLast (List.cons_ne_nil _ _)).end_⟩

theorem meeting_overlaps {interval a : Interval}
    (meets : ¬ Lower interval a ∧ Reaches interval a) :
    (a.overlaps interval || a.touches interval) = true := by
  obtain ⟨notLower, reach⟩ := meets
  unfold Lower at notLower
  unfold Reaches at reach
  unfold Interval.overlaps touches
  rw [Bool.or_eq_true, decide_eq_true_eq]
  by_cases overlap : interval.end_ ≥ a.start ∧ interval.start ≤ a.end_
  · exact Or.inl overlap
  · right
    by_cases right : a.start > interval.end_
    · rw [if_pos right, decide_eq_true_eq]
      omega
    · rw [if_neg right, if_pos (by omega), decide_eq_true_eq]
      omega

theorem addInterval_eq {xs before meeting after : List Interval} {interval : Interval}
    (proper : interval.Proper) (canonical : Canonical ⟨xs⟩)
    (around : Around xs interval before meeting after) :
    addInterval ⟨xs⟩ interval = .ok ⟨before ++ merged interval meeting :: after⟩ := by
  obtain ⟨searchLeft, searchRight⟩ := around_searches proper canonical around
  obtain ⟨rfl, lower, meets, beyond⟩ := around
  have total : (before ++ (meeting ++ after)).length =
      before.length + (meeting.length + after.length) := by simp
  unfold addInterval
  by_cases nothing : before ++ (meeting ++ after) = []
  · obtain ⟨rfl, none⟩ := List.append_eq_nil_iff.mp nothing
    obtain ⟨rfl, rfl⟩ := List.append_eq_nil_iff.mp none
    rfl
  have some : (!bool ⟨before ++ (meeting ++ after)⟩) = false := by
    simp only [bool, Bool.not_not, List.isEmpty_eq_false_iff]
    exact nothing
  simp only [some, Bool.false_eq_true, ↓reduceIte, searchLeft, searchRight, bind, Except.bind, len]
  cases meeting with
  | nil =>
    simp only [List.nil_append, List.length_nil, Nat.add_zero, merged]
    by_cases noneAfter : after = []
    · subst noneAfter
      simp only [List.append_nil, ↓reduceIte] at nothing ⊢
      have : 0 < before.length := List.length_pos_iff.mpr nothing
      rw [if_neg (by omega), if_neg (by omega), if_pos ⟨trivial, trivial⟩]
      rfl
    · simp only [if_neg noneAfter]
      by_cases noneBefore : before = []
      · subst noneBefore
        rw [if_neg (by simp), if_pos (by simp)]
        simp [Python.insert, pure, Except.pure]
      · have : 0 < before.length := List.length_pos_iff.mpr noneBefore
        rw [if_pos (by omega)]
        have place : ((before.length : Int) - 1 + 1).toNat = before.length := by omega
        rw [place, insert_append]
        rfl
  | cons first rest =>
    have size : (first :: rest).length = rest.length + 1 := rfl
    generalize found : (if after = [] then (-1 : Int) else
      ((before.length + (first :: rest).length : Nat) : Int)) = right
    have border : right = -1 ∧ after.length = 0 ∨
        right = before.length + rest.length + 1 ∧ 0 < after.length := by
      by_cases noneAfter : after = []
      · rw [if_pos noneAfter] at found
        exact Or.inl ⟨found.symm, by simp [noneAfter]⟩
      · rw [if_neg noneAfter, size] at found
        exact Or.inr ⟨by omega, List.length_pos_iff.mpr noneAfter⟩
    have last : (if right ≥ 0 then right - 1
        else ((before ++ (first :: rest ++ after)).length : Int) - 1) =
        ((before.length + rest.length : Nat) : Int) := by
      split <;> omega
    have inner : ¬ (right = -1 ∧ (before.length : Int) - 1 =
        ((before ++ (first :: rest ++ after)).length : Int) - 1) := by omega
    rw [last, if_neg (by omega), if_neg (by omega)]
    have leftItem : item (before ++ (first :: rest ++ after)) ((before.length : Int) - 1 + 1) =
        .ok first := item_middle before (rest ++ after) first (by omega)
    have rightItem : item (before ++ (first :: rest ++ after))
        ((before.length + rest.length : Nat) : Int) =
        .ok ((first :: rest).getLast (List.cons_ne_nil _ _)) := by
      have bound : before.length + rest.length < (before ++ (first :: rest ++ after)).length := by
        omega
      rw [item_nat bound, List.getElem_append_right (by omega),
        List.getElem_append_left (by omega), List.getLast_eq_getElem]
      simp
    have leftMeets := meeting_overlaps (meets first List.mem_cons_self)
    have rightMember := List.getLast_mem (List.cons_ne_nil first rest)
    have rightMeets := meeting_overlaps (meets _ rightMember)
    have leftPlace : ((before.length : Int) - 1 + 1).toNat = before.length := by omega
    have rightPlace : (((before.length + rest.length : Nat) : Int) + 1).toNat =
        before.length + (first :: rest).length := by
      rw [size]
      omega
    simp only [inner, leftItem, rightItem, leftMeets, rightMeets, ↓reduceIte, leftPlace, rightPlace,
      delSlice_append, insert_append, merged]
    rfl

theorem sorted_first {first : Interval} {rest : List Interval} (canonical : Canonical ⟨first :: rest⟩)
    {a : Interval} (member : a ∈ first :: rest) : first.start ≤ a.start := by
  have whole : first.start ≤ first.end_ := canonical.proper first List.mem_cons_self
  rcases List.mem_cons.mp member with rfl | later
  · exact Int.le_refl _
  · have before := (List.pairwise_cons.mp canonical.sorted).1 a later
    rw [Before] at before
    omega

theorem sorted_last {xs : List Interval} (canonical : Canonical ⟨xs⟩) (some : xs ≠ [])
    {a : Interval} (member : a ∈ xs) : a.end_ ≤ (xs.getLast some).end_ := by
  have shape := List.dropLast_append_getLast some
  have sorted := canonical.sorted
  have whole : (xs.getLast some).Proper := canonical.proper _ (List.getLast_mem some)
  unfold Proper at whole
  dsimp only at sorted
  rw [← shape] at sorted member
  rcases List.mem_append.mp member with inner | final
  · have before := (List.pairwise_append.mp sorted).2.2 a inner _ List.mem_cons_self
    rw [Before] at before
    omega
  · obtain rfl := List.mem_singleton.mp final
    exact Int.le_refl _

theorem mem_merged {interval : Interval} {meeting : List Interval}
    (canonical : Canonical ⟨meeting⟩)
    (meets : ∀ a ∈ meeting, ¬ Lower interval a ∧ Reaches interval a) (x : Int) :
    x ∈ merged interval meeting ↔ x ∈ interval ∨ x ∈ (⟨meeting⟩ : CanonicalIntervalSet) := by
  cases meeting with
  | nil => simp [merged, mem_iff]
  | cons first rest =>
    have some := List.cons_ne_nil first rest
    have firstMeets := (meets first List.mem_cons_self).1
    have lastMeets := (meets _ (List.getLast_mem some)).2
    unfold Lower at firstMeets
    unfold Reaches at lastMeets
    simp only [merged, mem_iff, Interval.mem_iff]
    constructor
    · intro inside
      by_cases below : x < interval.start
      · exact Or.inr ⟨first, List.mem_cons_self, by omega⟩
      · by_cases above : interval.end_ < x
        · exact Or.inr ⟨_, List.getLast_mem some, by omega⟩
        · exact Or.inl (by omega)
    · rintro (inside | ⟨a, member, inside⟩)
      · omega
      · have low := sorted_first canonical member
        have high := sorted_last canonical some member
        omega

theorem merged_border {interval : Interval} {meeting : List Interval} (a : Interval) :
    (Before a interval → (∀ b ∈ meeting, Before a b) → Before a (merged interval meeting)) ∧
      (Before interval a → (∀ b ∈ meeting, Before b a) → Before (merged interval meeting) a) := by
  cases meeting with
  | nil => exact ⟨fun h _ => h, fun h _ => h⟩
  | cons first rest =>
    simp only [Before, merged]
    constructor
    · intro own others
      have := others first List.mem_cons_self
      omega
    · intro own others
      have := others _ (List.getLast_mem (List.cons_ne_nil first rest))
      omega

theorem addInterval_spec {s : CanonicalIntervalSet} {interval : Interval}
    (proper : interval.Proper) (canonical : Canonical s) :
    Returns (s.addInterval interval) fun t =>
      Canonical t ∧ ∀ x, x ∈ t ↔ x ∈ s ∨ x ∈ interval := by
  obtain ⟨xs⟩ := s
  obtain ⟨before, meeting, after, around⟩ := around_exists canonical interval
  rw [addInterval_eq proper canonical around]
  obtain ⟨rfl, lower, meets, beyond⟩ := around
  obtain ⟨sortedBefore, sortedRest, apart⟩ := List.pairwise_append.mp canonical.sorted
  obtain ⟨sortedMeeting, sortedAfter, apartRest⟩ := List.pairwise_append.mp sortedRest
  have canonicalMeeting : Canonical ⟨meeting⟩ :=
    ⟨fun a member => canonical.proper a (by simp [member]), sortedMeeting⟩
  have properMerged : (merged interval meeting).Proper := by
    have inside := (mem_merged canonicalMeeting meets interval.start).mpr
      (Or.inl (start_mem proper))
    unfold Proper
    rw [Interval.mem_iff] at inside
    omega
  refine returns_ok ⟨⟨?_, ?_⟩, ?_⟩
  · intro a member
    rcases List.mem_append.mp member with inside | rest
    · exact canonical.proper a (by simp [inside])
    · rcases List.mem_cons.mp rest with rfl | inside
      · exact properMerged
      · exact canonical.proper a (by simp [inside])
  · refine List.pairwise_append.mpr ⟨sortedBefore, List.pairwise_cons.mpr ⟨?_, sortedAfter⟩, ?_⟩
    · intro b member
      have far := beyond b member
      unfold Reaches at far
      refine (merged_border b).2 ?_ fun a inside => apartRest a inside b member
      unfold Before
      omega
    · intro a inside b member
      rcases List.mem_cons.mp member with rfl | later
      · have near := lower a inside
        unfold Lower at near
        refine (merged_border a).1 ?_ fun b hb => apart a inside b (List.mem_append_left _ hb)
        unfold Before
        omega
      · exact apart a inside b (List.mem_append_right _ later)
  · intro x
    have middle := mem_merged canonicalMeeting meets x
    simp only [mem_iff] at middle ⊢
    simp only [List.mem_append, List.mem_cons, or_and_right, exists_or, exists_eq_left, middle]
    rw [or_comm (a := x ∈ interval), or_assoc, or_assoc, or_assoc, or_comm (a := x ∈ interval)]

theorem or_spec {s t : CanonicalIntervalSet} (left : Canonical s) (right : Canonical t) :
    Returns (s.or t) fun u => Canonical u ∧ ∀ x, x ∈ u ↔ x ∈ s ∨ x ∈ t := by
  obtain ⟨ys⟩ := t
  unfold CanonicalIntervalSet.or
  refine returns_mono (returns_foldlM
    (fun done u => Canonical u ∧ ∀ x, x ∈ u ↔ x ∈ s ∨ ∃ a ∈ done, x ∈ a) ?_ ?_) ?_
  · exact ⟨left, fun x => by simp⟩
  · rintro done interval rest u rfl ⟨canonical, members⟩
    refine returns_mono (addInterval_spec (right.proper interval (by simp)) canonical) ?_
    rintro w ⟨canonical', members'⟩
    refine ⟨canonical', fun x => ?_⟩
    rw [members', members]
    simp only [List.mem_append, List.mem_singleton, or_and_right, exists_or, exists_eq_left]
    exact or_assoc
  · rintro u ⟨canonical, members⟩
    exact ⟨canonical, members⟩

theorem getIntervalSet_eq (start end_ : Int) :
    getIntervalSet start end_ = .ok ⟨[⟨start, end_⟩]⟩ := rfl

/-- An interval lies in a sorted set exactly when it lies in one interval of it. -/
theorem interval_within {s : CanonicalIntervalSet} {a : Interval} (canonical : Canonical s)
    (proper : a.Proper) :
    (∀ x, x ∈ a → x ∈ s) ↔ ∃ b ∈ s.interval_set, b.start ≤ a.start ∧ a.end_ ≤ b.end_ := by
  obtain ⟨ys⟩ := s
  constructor
  · intro within
    induction ys with
    | nil =>
      obtain ⟨b, member, _⟩ := within a.start (start_mem proper)
      cases member
    | cons b ys ih =>
      have later : ∀ x, x ∈ (⟨ys⟩ : CanonicalIntervalSet) → b.end_ + 1 < x :=
        fun x => tail_after canonical
      have here : ∀ x, x ∈ a → (b.start ≤ x ∧ x ≤ b.end_) ∨ x ∈ (⟨ys⟩ : CanonicalIntervalSet) :=
        fun x inside => mem_cons_iff.mp (within x inside)
      unfold Proper at proper
      rcases here a.start (start_mem proper) with startsHere | startsLater
      · refine ⟨b, List.mem_cons_self, startsHere.1, ?_⟩
        -- were `a` to end later, the integer after `b` would be missing
        by_cases beyond : b.end_ < a.end_
        · rcases here (b.end_ + 1) ⟨by omega, by omega⟩ with inside | inside
          · omega
          · have := later _ inside
            omega
        · omega
      · have past := later _ startsLater
        obtain ⟨c, member, inside⟩ := ih (canonical_tail canonical) fun x inside =>
          (here x inside).resolve_left fun old => by
            rw [Interval.mem_iff] at inside
            omega
        exact ⟨c, List.mem_cons_of_mem _ member, inside⟩
  · rintro ⟨b, member, low, high⟩ x inside
    rw [Interval.mem_iff] at inside
    exact ⟨b, member, by rw [Interval.mem_iff]; omega⟩

/-- The step of `contained_in`: the candidate is the first interval that is not lower. -/
theorem candidate_spec {t : CanonicalIntervalSet} {a : Interval} (canonical : Canonical t)
    (proper : a.Proper) :
    Returns (t.findIntervalLeft a) fun left =>
      if left = (t.len : Int) - 1 then ¬ ∀ x, x ∈ a → x ∈ t
      else Returns (item t.interval_set (left + 1)) fun candidate =>
        (a.isSubset candidate = true ↔ ∀ x, x ∈ a → x ∈ t) := by
  obtain ⟨ys⟩ := t
  obtain ⟨before, meeting, after, around⟩ := around_exists canonical a
  rw [(around_searches proper canonical around).1]
  obtain ⟨rfl, lower, meets, beyond⟩ := around
  have notLower : ∀ b ∈ meeting ++ after, ¬ Lower a b := by
    intro b member
    rcases List.mem_append.mp member with inside | outside
    · exact (meets b inside).1
    · have far := beyond b outside
      have whole : b.start ≤ b.end_ := canonical.proper b (by simp [outside])
      unfold Proper at proper
      unfold Reaches at far
      unfold Lower
      omega
  -- the interval that holds `a` is none of the lower ones
  have place : ∀ b ∈ before ++ (meeting ++ after), b.start ≤ a.start → a.end_ ≤ b.end_ →
      b ∈ meeting ++ after := by
    intro b member low high
    rcases List.mem_append.mp member with inside | outside
    · have near := lower b inside
      unfold Lower at near
      unfold Proper at proper
      omega
    · exact outside
  refine returns_ok ?_
  rw [interval_within canonical proper]
  cases rest : meeting ++ after with
  | nil =>
    rw [if_pos (by simp [len])]
    rintro ⟨b, member, low, high⟩
    have := place b (by rw [rest]; exact member) low high
    rw [rest] at this
    cases this
  | cons candidate others =>
    have size : (before ++ candidate :: others).length = before.length + others.length + 1 := by
      simp
      omega
    rw [if_neg (by unfold len; dsimp only; omega), item_middle before others candidate (by omega)]
    refine returns_ok ?_
    unfold isSubset
    rw [decide_eq_true_eq]
    constructor
    · rintro ⟨low, high⟩
      exact ⟨candidate, by simp, low, high⟩
    · rintro ⟨b, member, low, high⟩
      have inside := place b (by rw [rest]; exact member) low high
      rw [rest] at inside
      rcases List.mem_cons.mp inside with rfl | later
      · exact ⟨low, high⟩
      · have notLow := notLower candidate (by simp [rest])
        have sorted := (List.pairwise_append.mp canonical.sorted).2.1
        rw [rest] at sorted
        have gap := (List.pairwise_cons.mp sorted).1 b later
        unfold Lower at notLow
        unfold Before at gap
        omega

theorem containedIn_spec {s t : CanonicalIntervalSet} (left : Canonical s) (right : Canonical t) :
    Returns (s.containedIn t) fun answer => (answer = true ↔ ∀ x, x ∈ s → x ∈ t) := by
  have loop : ∀ xs, Canonical ⟨xs⟩ → Returns (containedInLoop t xs) fun answer =>
      (answer = true ↔ ∀ x, x ∈ (⟨xs⟩ : CanonicalIntervalSet) → x ∈ t) := by
    intro xs canonical
    induction xs with
    | nil => exact returns_pure (by simp [mem_iff])
    | cons a rest ih =>
      have proper := canonical.proper a List.mem_cons_self
      unfold containedInLoop
      refine returns_bind (candidate_spec right proper) ?_
      intro found answer
      split
      · rename_i final
        rw [if_pos final] at answer
        refine returns_pure ?_
        simp only [Bool.false_eq_true, mem_cons_iff, false_iff]
        exact fun within => answer fun x inside => within x (Or.inl inside)
      · rename_i inner
        rw [if_neg inner] at answer
        refine returns_bind answer ?_
        intro candidate decides
        split
        · rename_i outside
          rw [Bool.not_eq_true'] at outside
          refine returns_pure ?_
          simp only [Bool.false_eq_true, mem_cons_iff, false_iff]
          intro within
          rw [decides.mpr fun x inside => within x (Or.inl inside)] at outside
          cases outside
        · rename_i inside
          rw [Bool.not_eq_true', Bool.not_eq_false] at inside
          have headWithin := decides.mp inside
          refine returns_mono (ih (canonical_tail canonical)) ?_
          intro b restWithin
          rw [restWithin]
          constructor
          · intro within x member
            rcases mem_cons_iff.mp member with here | later
            · exact headWithin x here
            · exact within x later
          · exact fun within x later => within x (mem_cons_iff.mpr (Or.inr later))
  obtain ⟨xs⟩ := s
  unfold containedIn
  split
  · rename_i a b single whole
    dsimp only at single
    subst single
    obtain ⟨ys⟩ := t
    dsimp only at whole
    subst whole
    refine returns_pure ?_
    have within := interval_within right (left.proper a (by simp))
    simp only [List.mem_singleton, exists_eq_left] at within
    unfold isSubset
    rw [decide_eq_true_eq]
    simp only [mem_iff, List.mem_singleton, exists_eq_left] at within ⊢
    exact within.symm
  · exact loop xs left

theorem contains_spec {s : CanonicalIntervalSet} (canonical : Canonical s) (x : Int) :
    Returns (s.contains x) fun answer => (answer = true ↔ x ∈ s) := by
  unfold contains
  rw [getIntervalSet_eq]
  refine returns_mono (containedIn_spec (canonical_singleton (Int.le_refl x)) canonical) ?_
  intro answer decides
  rw [decides]
  constructor
  · exact fun within => within x ⟨⟨x, x⟩, by simp, Int.le_refl x, Int.le_refl x⟩
  · rintro inside y ⟨a, member, low, high⟩
    obtain rfl := List.mem_singleton.mp member
    obtain rfl : y = x := by
      dsimp only at low high
      omega
    exact inside


end CanonicalIntervalSet

end Nca.CoreDS
