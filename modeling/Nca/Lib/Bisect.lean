import Nca.Lib.Python
import Mathlib.Order.Defs.LinearOrder
import Mathlib.Order.Lattice

/-!
Insertion by binary search. `bisect` probes one index after the other; nothing is asked of the
comparison, so all that is known of the place it finds is what it was told at its probes.
-/

namespace Nca.Lib.Python

variable {α : Type}

/-- The loop of `bisect_right` between `lo` and `hi`, in at most `fuel` turns. -/
def bisectRight (lt : α → α → Bool) (xs : List α) (x : α) : Nat → Nat → Nat → Nat
  | 0, lo, _ => lo
  | fuel + 1, lo, hi =>
    if lo < hi then
      let mid := (lo + hi) / 2
      match xs[mid]? with
      | some y => if lt x y then bisectRight lt xs x fuel lo mid
          else bisectRight lt xs x fuel (mid + 1) hi
      | none => lo
    else lo

/-- `insort(xs, x)`. -/
def insort (lt : α → α → Bool) (xs : List α) (x : α) : List α :=
  insert xs (bisectRight lt xs x xs.length 0 xs.length) x

/-- The indices that the loop probes. -/
def probes (lt : α → α → Bool) (xs : List α) (x : α) : Nat → Nat → Nat → List Nat
  | 0, _, _ => []
  | fuel + 1, lo, hi =>
    if lo < hi then
      let mid := (lo + hi) / 2
      match xs[mid]? with
      | some y => mid :: (if lt x y then probes lt xs x fuel lo mid
          else probes lt xs x fuel (mid + 1) hi)
      | none => []
    else []

variable {lt : α → α → Bool} {xs : List α} {x : α} {fuel lo hi : Nat}

/-- The place that is found lies behind a probed element that `x` does not precede, unless it is
the first place, and before one that `x` precedes, unless it is the last. -/
theorem bisectRight_spec (order : lo ≤ hi) (bound : hi ≤ xs.length) (enough : hi - lo ≤ fuel) :
    lo ≤ bisectRight lt xs x fuel lo hi ∧ bisectRight lt xs x fuel lo hi ≤ hi ∧
    (bisectRight lt xs x fuel lo hi = lo ∨ ∃ i y, i + 1 = bisectRight lt xs x fuel lo hi ∧
      i ∈ probes lt xs x fuel lo hi ∧ xs[i]? = some y ∧ lt x y = false) ∧
    (bisectRight lt xs x fuel lo hi = hi ∨ ∃ y, bisectRight lt xs x fuel lo hi ∈
      probes lt xs x fuel lo hi ∧ xs[bisectRight lt xs x fuel lo hi]? = some y ∧
      lt x y = true) := by
  induction fuel generalizing lo hi with
  | zero =>
    have same : lo = hi := by omega
    subst same
    exact ⟨Nat.le_refl lo, Nat.le_refl lo, Or.inl rfl, Or.inl rfl⟩
  | succ fuel ih =>
    unfold bisectRight probes
    by_cases open_ : lo < hi
    · rw [if_pos open_, if_pos open_]
      have inside : (lo + hi) / 2 < xs.length := by omega
      have found := List.getElem?_eq_getElem inside
      simp only [found]
      by_cases before : lt x xs[(lo + hi) / 2] = true
      · rw [if_pos before, if_pos before]
        obtain ⟨low, high, left, right⟩ :=
          @ih lo ((lo + hi) / 2) (by omega) (by omega) (by omega)
        refine ⟨low, by omega, ?_, ?_⟩
        · rcases left with start | ⟨i, y, same, probed, rest⟩
          · exact Or.inl start
          · exact Or.inr ⟨i, y, same, List.mem_cons_of_mem _ probed, rest⟩
        · right
          rcases right with stop | ⟨y, probed, rest⟩
          · rw [stop]
            exact ⟨_, List.mem_cons_self, found, before⟩
          · exact ⟨y, List.mem_cons_of_mem _ probed, rest⟩
      · rw [if_neg before, if_neg before]
        obtain ⟨low, high, left, right⟩ :=
          @ih ((lo + hi) / 2 + 1) hi (by omega) bound (by omega)
        refine ⟨by omega, high, ?_, ?_⟩
        · right
          rcases left with start | ⟨i, y, same, probed, rest⟩
          · exact ⟨_, _, start.symm, List.mem_cons_self, found, by simpa using before⟩
          · exact ⟨i, y, same, List.mem_cons_of_mem _ probed, rest⟩
        · rcases right with stop | ⟨y, probed, rest⟩
          · exact Or.inl stop
          · exact Or.inr ⟨y, List.mem_cons_of_mem _ probed, rest⟩
    · have same : lo = hi := by omega
      rw [if_neg open_, if_neg open_]
      exact ⟨Nat.le_refl lo, order, Or.inl rfl, Or.inl same⟩

/-- The place that is found lies behind every probed element that `x` does not precede. -/
theorem bisectRight_gt {i : Nat} {y : α} (order : lo ≤ hi) (bound : hi ≤ xs.length)
    (enough : hi - lo ≤ fuel) (probed : i ∈ probes lt xs x fuel lo hi) (found : xs[i]? = some y)
    (notBefore : lt x y = false) : i < bisectRight lt xs x fuel lo hi := by
  induction fuel generalizing lo hi with
  | zero => cases probed
  | succ fuel ih =>
    unfold probes at probed
    unfold bisectRight
    by_cases open_ : lo < hi
    · rw [if_pos open_] at probed ⊢
      have inside : (lo + hi) / 2 < xs.length := by omega
      simp only [List.getElem?_eq_getElem inside] at probed ⊢
      by_cases before : lt x xs[(lo + hi) / 2] = true
      · rw [if_pos before] at probed ⊢
        rcases List.mem_cons.mp probed with rfl | later
        · rw [List.getElem?_eq_getElem inside, Option.some_inj] at found
          rw [found, notBefore] at before
          cases before
        · exact ih (by omega) (by omega) (by omega) later
      · rw [if_neg before] at probed ⊢
        rcases List.mem_cons.mp probed with rfl | later
        · exact (bisectRight_spec (by omega) bound (by omega)).1
        · exact ih (by omega) bound (by omega) later
    · rw [if_neg open_] at probed
      cases probed

/-- Insertion puts the element between two parts of the list. -/
theorem insort_spec (lt : α → α → Bool) (xs : List α) (x : α) : ∃ before after,
    xs = before ++ after ∧ insort lt xs x = before ++ x :: after ∧
    (before = [] ∨ ∃ init y, before = init ++ [y] ∧ lt x y = false ∧
      init.length ∈ probes lt xs x xs.length 0 xs.length) ∧
    (after = [] ∨ ∃ y rest, after = y :: rest ∧ lt x y = true ∧
      before.length ∈ probes lt xs x xs.length 0 xs.length) := by
  obtain ⟨_, high, left, right⟩ := @bisectRight_spec _ lt xs x xs.length 0 xs.length
    (Nat.zero_le _) (Nat.le_refl _) (Nat.le_refl _)
  unfold insort insert
  generalize bisectRight lt xs x xs.length 0 xs.length = k at *
  have size : (xs.take k).length = k := List.length_take_of_le high
  refine ⟨xs.take k, xs.drop k, (List.take_append_drop k xs).symm, rfl, ?_, ?_⟩
  · rcases left with zero | ⟨i, y, rfl, probed, found, notBefore⟩
    · exact Or.inl (by rw [zero, List.take_zero])
    · refine Or.inr ⟨xs.take i, y, ?_, notBefore, ?_⟩
      · rw [List.take_add_one, found]
        rfl
      · rwa [List.length_take_of_le (by omega)]
  · rcases right with last | ⟨y, probed, found, before⟩
    · exact Or.inl (by rw [last, List.drop_length])
    · refine Or.inr ⟨y, xs.drop (k + 1), ?_, before, by rwa [size]⟩
      obtain ⟨bound, rfl⟩ := List.getElem?_eq_some_iff.mp found
      exact List.drop_eq_getElem_cons bound

theorem mem_insort {y : α} : y ∈ insort lt xs x ↔ y = x ∨ y ∈ xs := by
  obtain ⟨before, after, rfl, whole, _⟩ := insort_spec lt xs x
  rw [whole]
  simp only [List.mem_append, List.mem_cons]
  grind

/-- Among elements in the order of a key, the element goes behind all of its own key. -/
theorem insort_sorted {K : Type} [LinearOrder K] (key : α → K)
    (byKey : ∀ y ∈ xs, lt x y = decide (key x < key y))
    (sorted : xs.Pairwise fun a b => key a ≤ key b) : ∃ before after,
    xs = before ++ after ∧ insort lt xs x = before ++ x :: after ∧
    (∀ y ∈ before, key y ≤ key x) ∧ ∀ y ∈ after, key x < key y := by
  obtain ⟨before, after, rfl, whole, left, right⟩ := insort_spec lt xs x
  obtain ⟨first, second, _⟩ := List.pairwise_append.mp sorted
  refine ⟨before, after, rfl, whole, fun y member => ?_, fun y member => ?_⟩
  · obtain rfl | ⟨init, last, rfl, notBefore, _⟩ := left
    · cases member
    · rw [byKey last (by simp), decide_eq_false_iff_not, not_lt] at notBefore
      rcases List.mem_append.mp member with inside | same
      · exact le_trans ((List.pairwise_append.mp first).2.2 y inside last (by simp)) notBefore
      · exact List.mem_singleton.mp same ▸ notBefore
  · obtain rfl | ⟨next, rest, rfl, before, _⟩ := right
    · cases member
    · rw [byKey next (by simp), decide_eq_true_eq] at before
      rcases List.mem_cons.mp member with rfl | later
      · exact before
      · exact lt_of_lt_of_le before ((List.pairwise_cons.mp second).1 y later)

theorem insort_perm (lt : α → α → Bool) (xs : List α) (x : α) : (insort lt xs x).Perm (x :: xs) := by
  obtain ⟨before, after, rfl, whole, _⟩ := insort_spec lt xs x
  rw [whole]
  exact List.perm_middle

/-- Sorted lists whose elements of each key are the same are the same. -/
theorem eq_of_sorted {α K : Type} [LinearOrder K] {key : α → K} {xs ys : List α}
    (sorted : xs.Pairwise fun a b => key a ≤ key b) (sorted' : ys.Pairwise fun a b => key a ≤ key b)
    (same : ∀ k, xs.filter (fun a => decide (key a = k)) = ys.filter fun a => decide (key a = k)) :
    xs = ys := by
  have among : ∀ {xs ys : List α}, (∀ k, xs.filter (fun a => decide (key a = k)) =
      ys.filter fun a => decide (key a = k)) → ∀ x ∈ xs, x ∈ ys := by
    intro xs ys same x member
    have inside : x ∈ xs.filter fun a => decide (key a = key x) :=
      List.mem_filter.mpr ⟨member, decide_eq_true rfl⟩
    exact List.mem_of_mem_filter (same (key x) ▸ inside)
  induction xs generalizing ys with
  | nil =>
    cases ys with
    | nil => rfl
    | cons y ys => cases among (fun k => (same k).symm) y List.mem_cons_self
  | cons x xs ih =>
    cases ys with
    | nil => cases among same x List.mem_cons_self
    | cons y ys =>
      obtain ⟨first, sortedRest⟩ := List.pairwise_cons.mp sorted
      obtain ⟨first', sortedRest'⟩ := List.pairwise_cons.mp sorted'
      have low : key x ≤ key y := by
        rcases List.mem_cons.mp (among (fun k => (same k).symm) y List.mem_cons_self) with rfl | later
        · exact le_refl _
        · exact first y later
      have high : key y ≤ key x := by
        rcases List.mem_cons.mp (among same x List.mem_cons_self) with rfl | later
        · exact le_refl _
        · exact first' x later
      have equal := le_antisymm low high
      have heads := same (key x)
      rw [List.filter_cons_of_pos (by simp), List.filter_cons_of_pos (by simp [equal])] at heads
      obtain ⟨rfl, _⟩ := List.cons.inj heads
      refine congrArg (x :: ·) (ih sortedRest sortedRest' fun k => ?_)
      have whole := same k
      by_cases here : key x = k
      · rw [List.filter_cons_of_pos (by simpa using here),
          List.filter_cons_of_pos (by simpa using here)] at whole
        exact (List.cons.inj whole).2
      · rwa [List.filter_cons_of_neg (by simpa using here),
          List.filter_cons_of_neg (by simpa using here)] at whole

end Nca.Lib.Python
