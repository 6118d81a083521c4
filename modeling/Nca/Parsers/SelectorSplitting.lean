import Nca.Parsers.CalicoPolicyYamlParser

/-!
How a selector is split: the pieces between the operators that stand outside of all brackets, and
the removal of brackets around the whole selector.
-/

namespace Nca.Parsers
open CoreDS Lib Lib.Texts

variable {a b c : Char} {s t u v cur : Str} {m n : Int}

section Counts

theorem bracketCount_append : bracketCount (s ++ t) = bracketCount s + bracketCount t := by
  simp only [bracketCount, List.count_append]
  omega

theorem bracketCount_plain (opening : '(' ∉ s) (closing : ')' ∉ s) : bracketCount s = 0 := by
  rw [bracketCount, List.count_eq_zero.mpr opening, List.count_eq_zero.mpr closing]
  rfl

theorem bracketCount_opening : bracketCount ['('] = 1 := rfl

theorem bracketCount_closing : bracketCount [')'] = -1 := rfl

/-- No bracket of the text is closed before it is opened. -/
def Nested (s : Str) : Prop := ∀ u, u <+: s → 0 ≤ bracketCount u

theorem nested_plain (opening : '(' ∉ s) (closing : ')' ∉ s) : Nested s := by
  intro u front
  rw [bracketCount_plain (fun inside => opening (front.subset inside))
    fun inside => closing (front.subset inside)]

theorem nested_append (first : Nested s) (closed : bracketCount s = 0) (second : Nested t) :
    Nested (s ++ t) := by
  intro u ⟨w, whole⟩
  rcases List.append_eq_append_iff.mp whole with ⟨x, rfl, _⟩ | ⟨x, rfl, rfl⟩
  · exact first u (List.prefix_append u x)
  · rw [bracketCount_append, closed]
    have positive := second x (List.prefix_append x w)
    omega

/-- The expression begins with a closed part, which is not all of it. -/
theorem doNotRemove_iff :
    doNotRemove s = true ↔ ∃ u, u ≠ [] ∧ u <+: s.dropLast ∧ bracketCount u = 0 := by
  have counted : ∀ (w front : Str) (flag : Bool),
      (w.foldl (fun acc c =>
        let n_brackets := acc.1 + bracketCount [c]
        (n_brackets, acc.2 || n_brackets == 0)) (bracketCount front, flag)).2 = true ↔
      flag = true ∨ ∃ u, u ≠ [] ∧ u <+: w ∧ bracketCount (front ++ u) = 0 := by
    intro w
    induction w with
    | nil => simp
    | cons c w ih =>
      intro front flag
      rw [List.foldl_cons]
      dsimp only
      rw [← bracketCount_append, ih, Bool.or_eq_true, beq_iff_eq, or_assoc]
      apply or_congr_right
      constructor
      · rintro (closed | ⟨u, _, inside, closed⟩)
        · exact ⟨[c], List.cons_ne_nil _ _, List.prefix_append [c] w, closed⟩
        · refine ⟨c :: u, List.cons_ne_nil _ _, List.cons_prefix_cons.mpr ⟨rfl, inside⟩, ?_⟩
          rwa [List.append_cons]
      · rintro ⟨u, nonEmpty, inside, closed⟩
        obtain ⟨d, rest, rfl⟩ := List.exists_cons_of_ne_nil nonEmpty
        obtain ⟨rfl, behind⟩ := List.cons_prefix_cons.mp inside
        rw [List.append_cons] at closed
        cases rest with
        | nil => exact Or.inl (by rwa [List.append_nil] at closed)
        | cons e rest => exact Or.inr ⟨e :: rest, List.cons_ne_nil _ _, behind, closed⟩
  have folded := counted s.dropLast [] false
  rw [Bool.false_eq_true, false_or] at folded
  exact folded

theorem bracketCount_brackets : bracketCount ('(' :: (s ++ [')'])) = bracketCount s := by
  rw [← List.singleton_append, bracketCount_append, bracketCount_append, bracketCount_opening,
    bracketCount_closing]
  omega

theorem nested_opening (nested : Nested s) (u : Str) (some : u ≠ []) (front : u <+: '(' :: s) :
    1 ≤ bracketCount u := by
  obtain ⟨c, rest, rfl⟩ := List.exists_cons_of_ne_nil some
  obtain ⟨rfl, behind⟩ := List.cons_prefix_cons.mp front
  have positive := nested rest behind
  rw [← List.singleton_append, bracketCount_append, bracketCount_opening]
  omega

theorem nested_brackets (nested : Nested s) (closed : bracketCount s = 0) :
    Nested ('(' :: (s ++ [')'])) := by
  intro u front
  by_cases none : u = []
  · rw [none]
    decide
  · rw [← List.cons_append] at front
    rcases List.prefix_concat_iff.mp front with rfl | before
    · rw [List.cons_append, bracketCount_brackets, closed]
    · have positive := nested_opening nested u none before
      omega

/-- Brackets around a text can be removed. -/
theorem doNotRemove_brackets (nested : Nested s) : doNotRemove ('(' :: (s ++ [')'])) = false := by
  rw [← Bool.not_eq_true, doNotRemove_iff]
  intro ⟨u, nonEmpty, front, closed⟩
  rw [← List.cons_append, List.dropLast_concat] at front
  have positive := nested_opening nested u nonEmpty front
  omega

/-- Brackets that are closed before the end are not around the text. -/
theorem doNotRemove_append (some : s ≠ []) (closed : bracketCount s = 0) (others : t ≠ []) :
    doNotRemove (s ++ t) = true := by
  refine doNotRemove_iff.mpr ⟨s, some, ?_, closed⟩
  rw [List.dropLast_append_of_ne_nil others]
  exact List.prefix_append s _

end Counts

section Pieces

/-- The pieces of an expression behind the current one. -/
def gather (a b : Char) : List Str → Str → List Str
  | [], _ => []
  | x :: xs, cur =>
    if bracketCount (cur ++ x) = 0 then (cur ++ x) :: gather a b xs []
    else gather a b xs (cur ++ x ++ [a, b])

/-- The pieces of the rest of an expression, where the current one has begun. -/
def walk (a b : Char) (s cur : Str) : List Str := gather a b (splitBy a b s) cur

theorem splitSelector_walk : splitSelector s a b = walk a b s [] := by
  have folded : ∀ (xs : List Str) (found : List Str) (cur : Str),
      (xs.foldl (fun acc expr =>
        let current_expr := acc.2 ++ expr
        if bracketCount current_expr = 0 then (acc.1 ++ [current_expr], [])
        else (acc.1, current_expr ++ [a, b])) (found, cur)).1 = found ++ gather a b xs cur := by
    intro xs
    induction xs with
    | nil => exact fun found _ => (List.append_nil found).symm
    | cons x xs ih =>
      intro found cur
      rw [List.foldl_cons, gather]
      dsimp only
      by_cases closed : bracketCount (cur ++ x) = 0
      · rw [if_pos closed, if_pos closed, ih, List.append_assoc, List.singleton_append]
      · rw [if_neg closed, if_neg closed, ih]
  exact folded _ [] []

theorem walk_nil : walk a b [] cur = if bracketCount cur = 0 then [cur] else [] := by
  rw [walk, splitBy, gather, List.append_nil]
  rfl

theorem splitBy_ne_nil : splitBy a b s ≠ [] := by
  fun_induction splitBy a b s with
  | case1 => exact List.cons_ne_nil _ _
  | case2 c => exact List.cons_ne_nil _ _
  | case3 c d s same => exact List.cons_ne_nil _ _
  | case4 c d s other ih => simpa using ih

theorem gather_head {xs : List Str} (some : xs ≠ []) :
    gather a b (xs.modifyHead (c :: ·)) cur = gather a b xs (cur ++ [c]) := by
  obtain ⟨x, rest, rfl⟩ := List.exists_cons_of_ne_nil some
  rw [List.modifyHead_cons, gather, gather, List.append_cons cur c x]

theorem walk_char (other : ¬ (c = a ∧ s.head? = some b)) :
    walk a b (c :: s) cur = walk a b s (cur ++ [c]) := by
  cases s with
  | nil =>
    rw [walk_nil, walk, splitBy, gather]
    rfl
  | cons d s =>
    have apart : ¬ (c = a ∧ d = b) := fun ⟨first, second⟩ => other ⟨first, by rw [second]; rfl⟩
    rw [walk, splitBy, if_neg apart, gather_head splitBy_ne_nil]
    rfl

theorem walk_operator : walk a b (a :: b :: s) cur =
    if bracketCount cur = 0 then cur :: walk a b s [] else walk a b s (cur ++ [a, b]) := by
  rw [walk, splitBy, if_pos ⟨rfl, rfl⟩, gather, List.append_nil]
  rfl

/-- Where the brackets that are open are at least `n`, the text is no place to split at. -/
def Passes (a b : Char) (n : Int) (s : Str) : Prop :=
  ∀ t cur, n ≤ bracketCount cur → walk a b (s ++ t) cur = walk a b t (cur ++ s)

theorem walk_plain (plain : a ∉ s) : walk a b (s ++ t) cur = walk a b t (cur ++ s) := by
  induction s generalizing cur with
  | nil =>
    rw [List.append_nil]
    rfl
  | cons c s ih =>
    have other : c ≠ a := fun same => plain (same ▸ List.mem_cons_self)
    have others : a ∉ s := fun inside => plain (List.mem_cons_of_mem c inside)
    rw [List.cons_append, walk_char fun ⟨same, _⟩ => other same, ih others, List.append_assoc]
    rfl

theorem passes_plain (plain : a ∉ s) : Passes a b n s := fun _ _ _ => walk_plain plain

theorem passes_operator (deep : 1 ≤ n) : Passes a b n [a, b] := by
  intro t cur enough
  have opened : ¬ bracketCount cur = 0 := by omega
  show walk a b (a :: b :: t) cur = _
  rw [walk_operator, if_neg opened]

theorem passes_append (first : Passes a b n s) (second : Passes a b m t)
    (deep : m ≤ n + bracketCount s) : Passes a b n (s ++ t) := by
  intro w cur enough
  rw [List.append_assoc, first _ _ enough, second, List.append_assoc]
  rw [bracketCount_append]
  omega

theorem passes_mono (less : m ≤ n) (passes : Passes a b m s) : Passes a b n s :=
  fun t cur enough => passes t cur (Int.le_trans less enough)

end Pieces
end Nca.Parsers
