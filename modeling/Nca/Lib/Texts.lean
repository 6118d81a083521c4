import Mathlib.Data.List.DropRight
import Mathlib.Data.List.TakeWhile

/-!
The methods of strings that split and strip texts, and what they do with a text that is written as
a sequence of tokens and gaps.
-/

namespace Nca.Lib.Texts

variable {a b c : Char} {s t u v w : List Char} {p : Char → Bool}

/-- `c.isspace()` -/
def isSpace (c : Char) : Bool :=
  let n := c.toNat
  (decide (9 ≤ n) && decide (n ≤ 13)) || (decide (28 ≤ n) && decide (n ≤ 32)) || n == 0x85 ||
    n == 0xa0 || n == 0x1680 || (decide (0x2000 ≤ n) && decide (n ≤ 0x200a)) || n == 0x2028 ||
    n == 0x2029 || n == 0x202f || n == 0x205f || n == 0x3000

/-- `s.strip()` -/
def strip (s : List Char) : List Char := (s.dropWhile isSpace).rdropWhile isSpace

/-- `s.split()` -/
def words : List Char → List (List Char)
  | [] => []
  | c :: s =>
    if isSpace c then words s
    else if s.head?.all isSpace then [c] :: words s
    else (words s).modifyHead (c :: ·)

/-- `' '.join(s.split())` -/
def joinedWords (s : List Char) : List Char := List.intercalate [' '] (words s)

/-- `s.split(ab)`, where `ab` is a separator of two characters. -/
def splitBy (a b : Char) : List Char → List (List Char)
  | [] => [[]]
  | [c] => [[c]]
  | c :: d :: s =>
    if c = a ∧ d = b then [] :: splitBy a b s else (splitBy a b (d :: s)).modifyHead (c :: ·)

section Runs

/-- The longest run of characters of a class at the front of a text is unique. -/
theorem run_cancel (left : ∀ c ∈ u, p c = true) (right : ∀ c ∈ v, p c = true)
    (stopLeft : ∀ c ∈ s.head?, p c = false) (stopRight : ∀ c ∈ t.head?, p c = false)
    (same : u ++ s = v ++ t) : u = v ∧ s = t := by
  have taken : ∀ {x y : List Char}, (∀ c ∈ x, p c = true) → (∀ c ∈ y.head?, p c = false) →
      (x ++ y).takeWhile p = x := by
    intro x y each stop
    rw [List.takeWhile_append_of_pos each]
    cases y with
    | nil => exact List.append_nil x
    | cons d y => rw [List.takeWhile_cons_of_neg (by simp [stop d rfl]), List.append_nil]
  have runs : u = v := by rw [← taken left stopLeft, same, taken right stopRight]
  rw [runs] at same
  exact ⟨runs, List.append_cancel_left same⟩

theorem strip_padded (front : ∀ c ∈ u, isSpace c = true) (back : ∀ c ∈ v, isSpace c = true)
    (first : ∀ c ∈ s.head?, isSpace c = false) (last : ∀ c ∈ s.getLast?, isSpace c = false)
    (some : s ≠ []) : strip (u ++ s ++ v) = s := by
  obtain ⟨c, rest, rfl⟩ := List.exists_cons_of_ne_nil some
  have head : isSpace c = false := first c rfl
  have dropped : ((u ++ c :: rest) ++ v).dropWhile isSpace = (c :: rest) ++ v := by
    rw [List.append_assoc, List.dropWhile_append_of_pos front, List.cons_append,
      List.dropWhile_cons_of_neg (by simp [head])]
  rw [strip, dropped, List.rdropWhile, List.reverse_append,
    List.dropWhile_append_of_pos (by simpa using back)]
  obtain ⟨d, front, shape⟩ := List.exists_cons_of_ne_nil (List.reverse_ne_nil_iff.mpr some)
  have lastChar : isSpace d = false := by
    apply last d
    rw [List.getLast?_eq_head?_reverse, shape]
    rfl
  rw [shape, List.dropWhile_cons_of_neg (by simp [lastChar]), ← shape, List.reverse_reverse]

theorem strip_split (s : List Char) : ∃ u v, s = u ++ (strip s ++ v) ∧
    (∀ c ∈ u, isSpace c = true) ∧ ∀ c ∈ v, isSpace c = true := by
  refine ⟨s.takeWhile isSpace, (s.dropWhile isSpace).rtakeWhile isSpace, ?_, ?_, ?_⟩
  · rw [strip, List.rdropWhile_append_rtakeWhile, List.takeWhile_append_dropWhile]
  · intro c inside
    exact List.mem_takeWhile_imp inside
  · intro c inside
    exact List.mem_rtakeWhile_imp inside

end Runs

section Gaps

/-- A gap between tokens, of which one space is left. -/
def gap (w : List Char) : List Char := if w = [] then [] else [' ']

/-- The text with one space for each gap. -/
def squeezed : List Char → List Char
  | [] => []
  | c :: s =>
    if isSpace c then
      if s.head?.any fun d => !isSpace d then ' ' :: squeezed s else squeezed s
    else c :: squeezed s

theorem squeezed_token (token : ∀ c ∈ t, isSpace c = false) :
    squeezed (t ++ s) = t ++ squeezed s := by
  induction t with
  | nil => rfl
  | cons c t ih =>
    obtain ⟨first, others⟩ := List.forall_mem_cons.mp token
    rw [List.cons_append, squeezed, if_neg (by simp [first]), ih others, List.cons_append]

theorem squeezed_gap (spaces : ∀ c ∈ w, isSpace c = true)
    (stop : ∃ c ∈ s.head?, isSpace c = false) : squeezed (w ++ s) = gap w ++ squeezed s := by
  obtain ⟨d, found, solid⟩ := stop
  obtain ⟨s', rfl⟩ := List.head?_eq_some_iff.mp (Option.mem_def.mp found)
  induction w with
  | nil => rfl
  | cons c w ih =>
    obtain ⟨first, others⟩ := List.forall_mem_cons.mp spaces
    rw [List.cons_append, squeezed, if_pos first]
    cases w with
    | nil => simp [gap, solid]
    | cons e w =>
      have second : isSpace e = true := others e List.mem_cons_self
      rw [List.cons_append, List.head?_cons, Option.any_some, second, if_neg (by simp),
        ← List.cons_append, ih others]
      rfl

theorem words_space (space : isSpace c = true) : words (c :: s) = words s := by
  rw [words, if_pos space]

theorem words_last (solid : isSpace c = false) (stop : s.head?.all isSpace = true) :
    words (c :: s) = [c] :: words s := by
  rw [words, if_neg (by simp [solid]), if_pos stop]

theorem words_more (solid : isSpace c = false) (next : isSpace b = false) :
    words (c :: b :: s) = (words (b :: s)).modifyHead (c :: ·) := by
  rw [words, if_neg (by simp [solid]), if_neg (by simp [next])]

theorem words_solid (solid : isSpace c = false) : words (c :: s) ≠ [] := by
  induction s generalizing c with
  | nil =>
    rw [words_last solid rfl]
    exact List.cons_ne_nil _ _
  | cons d s ih =>
    by_cases next : isSpace d = true
    · rw [words_last solid (by simpa using next)]
      exact List.cons_ne_nil _ _
    · have solidNext : isSpace d = false := Bool.not_eq_true _ ▸ next
      rw [words_more solid solidNext]
      intro empty
      exact ih solidNext (by simpa using empty)

/-- Joining the words squeezes the gaps; leading spaces are lost. -/
theorem squeezed_eq : squeezed s =
    (if s.head?.any isSpace ∧ words s ≠ [] then [' '] else []) ++ joinedWords s := by
  induction s with
  | nil => rfl
  | cons c s ih =>
    unfold joinedWords at ih ⊢
    by_cases space : isSpace c = true
    · rw [squeezed, if_pos space, ih, words_space space]
      cases s with
      | nil => simp [words]
      | cons d s =>
        by_cases next : isSpace d = true
        · simp [space, next]
        · have some : words (d :: s) ≠ [] := words_solid (Bool.not_eq_true _ ▸ next)
          simp [space, next, some]
    · have solid : isSpace c = false := Bool.not_eq_true _ ▸ space
      rw [squeezed, if_neg space, ih]
      cases s with
      | nil => simp [words, space]
      | cons d s =>
        by_cases next : isSpace d = true
        · have last : words (c :: d :: s) = [c] :: words (d :: s) :=
            words_last solid (by simpa using next)
          rw [last]
          cases others : words (d :: s) with
          | nil => simp [solid]
          | cons x rest => simp [solid, next, List.intercalate]
        · have solidNext : isSpace d = false := Bool.not_eq_true _ ▸ next
          obtain ⟨x, rest, others⟩ := List.exists_cons_of_ne_nil (words_solid (s := s) solidNext)
          rw [words_more solid solidNext, others]
          cases rest with
          | nil => simp [solid, solidNext]
          | cons y rest => simp [solid, solidNext, List.intercalate]

theorem joinedWords_eq (first : ∀ c ∈ s.head?, isSpace c = false) : joinedWords s = squeezed s := by
  rw [squeezed_eq, if_neg, List.nil_append]
  rintro ⟨space, _⟩
  obtain ⟨c, found, space⟩ := (Option.any_eq_true _ _).mp space
  rw [first c found] at space
  cases space

end Gaps

end Nca.Lib.Texts
