import Nca.Parsers.SelectorSyntax

/-!
What the parser of selectors splits a written selector to: the brackets around it are removed, and
the pieces between its operators are written selectors that bind stronger.
-/

namespace Nca.Parsers
open CoreDS Lib Lib.Texts

variable {s t u v w : Str} {a b c : Char} {e f : Selector} {level : Level} {xs ys : List Str}

section Brackets

/-- A written selector without brackets around it. -/
inductive Form : Selector → Str → Prop
  | atom {a : Atom} {s : Str} (text : AtomText Spaces a s) : Form (.atom a) s
  | not {e : Selector} {w s : Str} (gap : Spaces w) (inner : Printed .operand e s) :
      Form (.not e) ('!' :: (w ++ s))
  | and {e f : Selector} {s u v t : Str} (first : Printed .conjunction e s) (left : Spaces u)
      (right : Spaces v) (second : Printed .conjunction f t) :
      Form (.and e f) (s ++ (u ++ ('&' :: '&' :: (v ++ t))))
  | or {e f : Selector} {s u v t : Str} (first : Printed .alternatives e s) (left : Spaces u)
      (right : Spaces v) (second : Printed .alternatives f t) :
      Form (.or e f) (s ++ (u ++ ('|' :: '|' :: (v ++ t))))

theorem stripBrackets_self {fuel : Nat} (no : s.head? = some '(' → doNotRemove s = true) :
    stripBrackets fuel s = s := by
  cases fuel with
  | zero => rfl
  | succ fuel =>
    rw [stripBrackets, if_neg]
    intro ⟨opening, _, removable⟩
    rw [no opening] at removable
    cases removable

theorem ne_of_word (word : IsWordChar c) : c ≠ '(' ∧ c ≠ '!' := by
  constructor <;>
  · rintro rfl
    unfold IsWordChar at word
    revert word
    decide

theorem Closed.strip_padded (closed : Closed s) (left : Spaces u) (right : Spaces v) :
    strip (u ++ (s ++ v)) = s := by
  rw [← List.append_assoc]
  apply Texts.strip_padded left right _ _ closed.ne_nil
  · intro c found
    obtain ⟨d, same, solid⟩ := closed.first
    rwa [Option.mem_unique found same]
  · intro c found
    obtain ⟨d, same, solid, _⟩ := closed.last
    rwa [Option.mem_unique found same]

theorem stripBrackets_printed (printed : Printed level e s) {fuel : Nat}
    (enough : s.length ≤ fuel) :
    ∃ t, stripBrackets fuel s = t ∧ Form e t ∧ t.length ≤ s.length := by
  induction printed generalizing fuel with
  | atom text =>
    refine ⟨_, stripBrackets_self fun opening => ?_, .atom text, Nat.le_refl _⟩
    obtain ⟨c, found, word⟩ := (solid_atom text).head
    rw [Option.mem_def.mp found, Option.some.injEq] at opening
    exact (ne_of_word word).1.elim opening
  | not gap inner =>
    exact ⟨_, stripBrackets_self (fun opening => by simp at opening), .not gap inner, Nat.le_refl _⟩
  | @brackets e u s v left inner right ih =>
    have shape := printed_shape inner
    have nested : Nested (u ++ (s ++ v)) := by
      apply nested_append (plain_spaces left).nested (plain_spaces left).balanced
      exact nested_append shape.nested shape.balanced (plain_spaces right).nested
    simp only [List.length_cons, List.length_append] at enough
    cases fuel with
    | zero => omega
    | succ fuel =>
      obtain ⟨t, stripped, form, less⟩ := @ih fuel (by omega)
      refine ⟨t, ?_, form, ?_⟩
      · rw [stripBrackets, if_pos]
        · rw [List.tail_cons, List.dropLast_concat, shape.toClosed.strip_padded left right]
          exact stripped
        · refine ⟨rfl, ?_, doNotRemove_brackets nested⟩
          rw [← List.cons_append]
          exact List.getLast?_concat
      · simp only [List.length_cons, List.length_append]
        omega
  | operand _ ih => exact ih enough
  | and first left right second =>
    have shape := printed_shape first
    refine ⟨_, stripBrackets_self fun _ => ?_, .and first left right second, Nat.le_refl _⟩
    exact doNotRemove_append shape.toClosed.ne_nil shape.balanced (by simp)
  | conjunction _ ih => exact ih enough
  | or first left right second =>
    have shape := printed_shape first
    refine ⟨_, stripBrackets_self fun _ => ?_, .or first left right second, Nat.le_refl _⟩
    exact doNotRemove_append shape.toClosed.ne_nil shape.balanced (by simp)

end Brackets

section Pieces

/-- The pieces of a selector between operators that join them; the pieces are written at a level. -/
inductive Pieces (join : Selector → Selector → Selector) (level : Level) :
    Selector → List Str → Prop
  | one {e : Selector} {s u v : Str} (inner : Printed level e s) (left : Spaces u)
      (right : Spaces v) : Pieces join level e [u ++ (s ++ v)]
  | both {e f : Selector} {xs ys : List Str} (first : Pieces join level e xs)
      (second : Pieces join level f ys) : Pieces join level (join e f) (xs ++ ys)

variable {join : Selector → Selector → Selector}

theorem pieces_ne_nil (pieces : Pieces join level e xs) : xs ≠ [] := by
  induction pieces with
  | one _ _ _ => exact List.cons_ne_nil _ _
  | both _ _ ih _ => exact List.append_ne_nil_of_left_ne_nil ih _

/-- What walking over a written selector leaves: complete pieces and the current one. -/
def Walks (b : Char) (join : Selector → Selector → Selector) (level : Level) (e : Selector)
    (s : Str) : Prop :=
  ∀ u, Spaces u → ∃ xs last, (∀ t, walk b b (u ++ (s ++ t)) [] = xs ++ walk b b t last) ∧
    bracketCount last = 0 ∧ (∀ v, Spaces v → Pieces join level e (xs ++ [last ++ v])) ∧
    ∀ x ∈ xs ++ [last], x.length ≤ u.length + s.length

theorem walks_one (printed : Printed level e s) (passes : Passes b b 0 s)
    (solid : isSpace b = false) : Walks b join level e s := by
  intro u spaces
  have shape := printed_shape printed
  have none := (plain_spaces spaces).balanced
  refine ⟨[], u ++ s, ?_, ?_, ?_, ?_⟩
  · intro t
    have through : Passes b b 0 (u ++ s) :=
      passes_append (passes_spaces spaces solid) passes (by omega)
    have walked := through t [] (Int.le_refl 0)
    rwa [List.append_assoc] at walked
  · rw [bracketCount_append, none, shape.balanced]
    rfl
  · intro v right
    rw [List.nil_append, List.append_assoc]
    exact .one printed spaces right
  · simp

theorem walks_both (first : Walks b join level e s) (second : Walks b join level f t)
    (left : Spaces u) (right : Spaces v) (solid : isSpace b = false) :
    Walks b join level (join e f) (s ++ (u ++ (b :: b :: (v ++ t)))) := by
  intro w spaces
  obtain ⟨xs, last, walked, closed, pieces, short⟩ := first w spaces
  obtain ⟨ys, last', walked', closed', pieces', short'⟩ := second v right
  have none := (plain_spaces left).balanced
  refine ⟨xs ++ (last ++ u) :: ys, last', ?_, closed', ?_, ?_⟩
  · intro t'
    have outside : b ∉ u := fun inside => by simp [left b inside] at solid
    have spaced : walk b b (u ++ (b :: b :: (v ++ (t ++ t')))) last =
        walk b b (b :: b :: (v ++ (t ++ t'))) (last ++ u) := walk_plain outside
    have balanced : bracketCount (last ++ u) = 0 := by
      rw [bracketCount_append]
      omega
    simp only [List.append_assoc, List.cons_append]
    rw [walked, spaced, walk_operator, if_pos balanced, walked']
  · intro v' right'
    have joined := Pieces.both (pieces u left) (pieces' v' right')
    simpa using joined
  · obtain ⟨shortXs, shortLast⟩ := List.forall_mem_append.mp short
    have less := shortLast last (List.mem_singleton_self last)
    simp only [List.length_append, List.length_cons]
    intro x listed
    rw [List.append_assoc, List.cons_append] at listed
    rcases List.mem_append.mp listed with early | listed
    · have bound := shortXs x early
      omega
    · rcases List.mem_cons.mp listed with rfl | late
      · rw [List.length_append]
        omega
      · have bound := short' x late
        omega

theorem splitSelector_one (passes : Passes b b 0 s) (closed : bracketCount s = 0) :
    splitSelector s b b = [s] := by
  have through := passes [] [] (Int.le_refl 0)
  rw [List.append_nil, List.nil_append] at through
  rw [splitSelector_walk, through, walk_nil, if_pos closed]

theorem splitSelector_both (first : Walks b join level e s) (second : Walks b join level f t)
    (left : Spaces u) (right : Spaces v) (solid : isSpace b = false) :
    ∃ xs ys, splitSelector (s ++ (u ++ (b :: b :: (v ++ t)))) b b = xs ++ ys ∧
      Pieces join level e xs ∧ Pieces join level f ys ∧
      ∀ x ∈ xs ++ ys, x.length < (s ++ (u ++ (b :: b :: (v ++ t)))).length := by
  obtain ⟨xs, last, walked, closed, pieces, short⟩ := first [] (List.forall_mem_nil _)
  obtain ⟨ys, last', walked', closed', pieces', short'⟩ := second v right
  have outside : b ∉ u := fun inside => by simp [left b inside] at solid
  have balanced : bracketCount (last ++ u) = 0 := by
    rw [bracketCount_append, (plain_spaces left).balanced]
    omega
  refine ⟨xs ++ [last ++ u], ys ++ [last'], ?_, pieces u left, ?_, ?_⟩
  · have gone := walked' []
    rw [List.append_nil, walk_nil, if_pos closed'] at gone
    have begun := walked (u ++ (b :: b :: (v ++ t)))
    rw [List.nil_append] at begun
    rw [splitSelector_walk, begun, walk_plain outside, walk_operator, if_pos balanced, gone]
    simp
  · have ended := pieces' [] (List.forall_mem_nil _)
    rwa [List.append_nil] at ended
  · obtain ⟨shortXs, shortLast⟩ := List.forall_mem_append.mp short
    have less := shortLast last (List.mem_singleton_self last)
    simp only [List.length_append, List.length_cons, List.length_nil] at *
    intro x listed
    rcases List.mem_append.mp listed with early | late
    · rcases List.mem_append.mp early with earlier | same
      · have bound := shortXs x earlier
        omega
      · rw [List.mem_singleton.mp same, List.length_append]
        omega
    · have bound := short' x late
      omega

theorem alternatives_walks (printed : Printed .alternatives e s) :
    Walks '|' .or .conjunction e s := by
  generalize same : Level.alternatives = level at printed
  induction printed with
  | conjunction inner => exact walks_one inner (printed_shape inner).bars (by decide)
  | or _ left right _ ih ih' => exact walks_both (ih same) (ih' same) left right (by decide)
  | _ => cases same

theorem conjunction_walks (printed : Printed .conjunction e s) :
    Walks '&' .and .operand e s := by
  generalize same : Level.conjunction = level at printed
  induction printed with
  | operand inner => exact walks_one inner (printed_shape inner).ands (by decide)
  | and _ left right _ ih ih' => exact walks_both (ih same) (ih' same) left right (by decide)
  | _ => cases same

end Pieces
end Nca.Parsers
