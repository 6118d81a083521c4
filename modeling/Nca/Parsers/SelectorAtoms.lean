import Mathlib.Data.Bool.AllAny
import Nca.Parsers.SelectorSyntax

/-!
The atomic expressions of selectors: how their gaps are squeezed, and what the regular expressions
read from them.
-/

namespace Nca.Parsers
open CoreDS Lib Lib.Texts

variable {s t u v w : Str} {a : Atom} {c : Char} {k : Str} {vs : List Str}

section Squeezed

/-- A gap of which at most one space is left. -/
def Gap (w : Str) : Prop := w = [] ∨ w = [' ']

theorem gap_gap : Gap (gap w) := by
  unfold gap
  split
  · exact Or.inl rfl
  · exact Or.inr rfl

theorem gap_some (some : w ≠ []) : gap w ≠ [] := by
  rw [gap, if_neg some]
  exact List.cons_ne_nil _ _

theorem solid_text (each : (t.all fun c => decide (isSpace c = false)) = true) :
    ∀ c ∈ t, isSpace c = false := List.all_iff_forall_prop.mp each

theorem squeezed_cons (solid : isSpace c = false) : squeezed (c :: s) = c :: squeezed s := by
  rw [squeezed, if_neg (by simp [solid])]

theorem squeezed_word (word : IsValue v) : squeezed (v ++ s) = v ++ squeezed s :=
  squeezed_token fun c inside => isSpace_word (word c inside)

theorem squeezed_quoted (value : IsValue v) : squeezed (quoted v ++ s) = quoted v ++ squeezed s := by
  simp only [quoted, List.cons_append, List.append_assoc, List.nil_append]
  rw [squeezed_cons (by decide), squeezed_word value, squeezed_cons (by decide)]

theorem squeezed_step (spaces : Spaces u) (token : ∀ c ∈ t, isSpace c = false) (some : t ≠ []) :
    squeezed (u ++ (t ++ s)) = gap u ++ (t ++ squeezed s) := by
  obtain ⟨c, rest, rfl⟩ := List.exists_cons_of_ne_nil some
  rw [squeezed_gap spaces ⟨c, rfl, token c List.mem_cons_self⟩, squeezed_token token]

theorem squeezed_compare {rest : Str} {op : CompareOp} (text : CompareText Spaces rest op s)
    (solid : ∃ c ∈ rest.head?, isSpace c = false) :
    CompareText Gap (squeezed rest) op (squeezed s) := by
  cases text with
  | eq left right =>
    rw [squeezed_step left (solid_text (by decide)) (by decide), squeezed_gap right solid]
    exact .eq gap_gap gap_gap
  | ne left right =>
    rw [squeezed_step left (solid_text (by decide)) (by decide), squeezed_gap right solid]
    exact .ne gap_gap gap_gap
  | contains left some right =>
    rw [squeezed_step left (solid_text (by decide)) (by decide), squeezed_gap right solid]
    exact .contains gap_gap (gap_some some) gap_gap
  | startsWith left some middle some' right =>
    rw [squeezed_step left (solid_text (by decide)) (by decide), squeezed_step middle (solid_text (by decide)) (by decide),
      squeezed_gap right solid]
    exact .startsWith gap_gap (gap_some some) gap_gap (gap_some some') gap_gap
  | endsWith left some middle some' right =>
    rw [squeezed_step left (solid_text (by decide)) (by decide), squeezed_step middle (solid_text (by decide)) (by decide),
      squeezed_gap right solid]
    exact .endsWith gap_gap (gap_some some) gap_gap (gap_some some') gap_gap

theorem squeezed_member {rest : Str} {negated : Bool} (text : MemberText Spaces rest negated s)
    (solid : ∃ c ∈ rest.head?, isSpace c = false) :
    MemberText Gap (squeezed rest) negated (squeezed s) := by
  cases text with
  | isIn left some right =>
    rw [squeezed_step left (solid_text (by decide)) (by decide), squeezed_gap right solid]
    exact .isIn gap_gap (gap_some some) gap_gap
  | notIn left some middle some' right =>
    rw [squeezed_step left (solid_text (by decide)) (by decide), squeezed_step middle (solid_text (by decide)) (by decide),
      squeezed_gap right solid]
    exact .notIn gap_gap (gap_some some) gap_gap (gap_some some') gap_gap

theorem quoted_solid (value : IsValue v) : ∀ c ∈ quoted v, isSpace c = false := by
  have inner : ∀ c ∈ v ++ ['\''], isSpace c = false := List.forall_mem_append.mpr
    ⟨fun c inside => isSpace_word (value c inside), List.forall_mem_singleton.mpr (by decide)⟩
  exact List.forall_mem_cons.mpr ⟨by decide, inner⟩

theorem more_solid {G : Str → Prop} (text : MoreText G vs s) : ∃ c ∈ s.head?, isSpace c = false := by
  cases text with
  | last => exact ⟨_, rfl, by decide⟩
  | more _ _ _ _ => exact ⟨_, rfl, by decide⟩

theorem list_solid {G : Str → Prop} (text : ListText G vs s) : ∃ c ∈ s.head?, isSpace c = false := by
  cases text with
  | empty _ => exact ⟨_, rfl, by decide⟩
  | some _ _ _ _ => exact ⟨_, rfl, by decide⟩

theorem squeezed_more (text : MoreText Spaces vs s) : MoreText Gap vs (squeezed s) := by
  induction text with
  | last => exact .last
  | more left value right others ih =>
    rw [squeezed_cons (by decide), squeezed_step left (quoted_solid value) (List.cons_ne_nil _ _),
      squeezed_gap right (more_solid others)]
    exact .more gap_gap value gap_gap ih

theorem squeezed_list (text : ListText Spaces vs s) : ListText Gap vs (squeezed s) := by
  cases text with
  | empty inner =>
    rw [squeezed_cons (by decide), squeezed_gap inner ⟨'}', rfl, by decide⟩]
    exact .empty gap_gap
  | some left value right others =>
    rw [squeezed_cons (by decide), squeezed_step left (quoted_solid value) (List.cons_ne_nil _ _),
      squeezed_gap right (more_solid others)]
    exact .some gap_gap value gap_gap (squeezed_more others)

theorem squeezed_atom (text : AtomText Spaces a s) : AtomText Gap a (squeezed s) := by
  cases text with
  | all => exact .all
  | has key =>
    rw [squeezed_token (solid_text (by decide)), squeezed_word key.2]
    exact .has key
  | @compare k v s op key value text =>
    have inner := squeezed_compare text ⟨_, rfl, by decide⟩
    have whole := squeezed_quoted (s := []) value
    simp only [List.append_nil, squeezed] at whole
    rw [whole] at inner
    rw [squeezed_word key.2]
    exact .compare key value inner
  | member key values text =>
    rw [squeezed_word key.2]
    exact .member key (squeezed_list values) (squeezed_member text (list_solid values))

/-- The parser reads an atomic expression with its gaps squeezed. -/
theorem joined_atom (text : AtomText Spaces a s) : joinedWords (strip s) = squeezed s := by
  have closed := (solid_atom text).toClosed
  have first : ∀ c ∈ s.head?, isSpace c = false := by
    intro c found
    obtain ⟨d, same, solid⟩ := closed.first
    rwa [Option.mem_unique found same]
  have last : ∀ c ∈ s.getLast?, isSpace c = false := by
    intro c found
    obtain ⟨d, same, solid, _⟩ := closed.last
    rwa [Option.mem_unique found same]
  have noSpaces : ∀ c ∈ ([] : Str), isSpace c = true := List.forall_mem_nil _
  have stripped : strip ([] ++ s ++ []) = s :=
    strip_padded noSpaces noSpaces first last closed.ne_nil
  rw [List.nil_append, List.append_nil] at stripped
  rw [stripped, joinedWords_eq first]

end Squeezed

section Patterns

variable {unicode : Char → Bool} {g : Pattern.Groups}

theorem selectorChar_word (word : IsWordChar c) : isSelectorChar unicode c = true := by
  rcases word with letter | rfl | rfl | rfl | rfl
  · simp [isSelectorChar, isReWord, isWordChar, letter]
  all_goals simp [isSelectorChar, isReWord, isWordChar]

theorem selectorChar_stop
    (stop : c = ' ' ∨ c = '\'' ∨ c = '=' ∨ c = '!' ∨ c = '(' ∨ c = ')') :
    isSelectorChar unicode c = false := by
  rcases stop with rfl | rfl | rfl | rfl | rfl | rfl <;> rfl

theorem Gap.spaces (gap : Gap w) : ∀ c ∈ w, isSpace c = true := by
  rcases gap with rfl | rfl
  · exact List.forall_mem_nil _
  · exact List.forall_mem_singleton.mpr (by decide)

theorem Gap.no_quote (gap : Gap w) : '\'' ∉ w := by
  rcases gap with rfl | rfl <;> decide

theorem spells_word {n : Nat} (spells : Pattern.Spells (wordPattern unicode n) u g) :
    u ≠ [] ∧ (∀ c ∈ u, isSelectorChar unicode c = true) ∧ g = [(n, u)] := by
  obtain ⟨h, rfl, inner⟩ := Pattern.spells_group.mp spells
  obtain ⟨some, each, rfl⟩ := Pattern.spells_plus_chars.mp inner
  exact ⟨some, each, rfl⟩

theorem spells_space (spells : Pattern.Spells spacePattern u g) :
    (∀ c ∈ u, isSpace c = true) ∧ '\'' ∉ u ∧ g = [] := by
  rcases Pattern.spells_opt.mp spells with one | ⟨rfl, rfl⟩
  · obtain ⟨c, space, rfl, rfl⟩ := Pattern.spells_chars.mp one
    refine ⟨List.forall_mem_singleton.mpr space, ?_, rfl⟩
    intro inside
    rw [← List.mem_singleton.mp inside] at space
    exact absurd space (by decide)
  · exact ⟨List.forall_mem_nil _, List.not_mem_nil, rfl⟩

theorem spells_quoted (spells : Pattern.Spells (quotedPattern unicode) u g) :
    ∃ v, u = quoted v ∧ v ≠ [] ∧ (∀ c ∈ v, isSelectorChar unicode c = true) ∧ g = [] := by
  obtain ⟨x, y, _, _, rfl, rfl, opening, rest⟩ := Pattern.spells_seq.mp spells
  obtain ⟨v, z, _, _, rfl, rfl, inner, closing⟩ := Pattern.spells_seq.mp rest
  obtain ⟨rfl, rfl⟩ := Pattern.spells_text.mp opening
  obtain ⟨rfl, rfl⟩ := Pattern.spells_text.mp closing
  obtain ⟨some, each, rfl⟩ := Pattern.spells_plus_chars.mp inner
  exact ⟨v, rfl, some, each, rfl⟩

/-- Two texts agree in what stands between their first quotes. -/
theorem quoted_cancel {x y : Str} (left : '\'' ∉ x) (right : '\'' ∉ y)
    (each : ∀ c ∈ u, isSelectorChar unicode c = true)
    (each' : ∀ c ∈ v, isSelectorChar unicode c = true)
    (same : x ++ (quoted u ++ s) = y ++ (quoted v ++ t)) : u = v ∧ s = t := by
  have unquoted : ∀ {z : Str}, '\'' ∉ z → ∀ c ∈ z, (c != '\'') = true := by
    intro z none c inside
    rw [bne_iff_ne]
    rintro rfl
    exact none inside
  have quote : ∀ {z w : Str}, ∀ c ∈ (quoted z ++ w).head?, (c != '\'') = false := by
    rintro z w c ⟨⟩
    rfl
  obtain ⟨_, rest⟩ := run_cancel (unquoted left) (unquoted right) quote quote same
  have inner : u ++ ('\'' :: s) = v ++ ('\'' :: t) := by simpa [quoted] using rest
  have stop : ∀ {z : Str}, ∀ c ∈ ('\'' :: z).head?, isSelectorChar unicode c = false := by
    rintro z c ⟨⟩
    rfl
  obtain ⟨values, rest⟩ := run_cancel each each' stop stop inner
  exact ⟨values, (List.cons.inj rest).2⟩

/-- Gaps before solid characters agree. -/
theorem gap_cancel {x y : Str} (left : ∀ c ∈ x, isSpace c = true) (right : ∀ c ∈ y, isSpace c = true)
    (stop : ∀ c ∈ s.head?, isSpace c = false) (stop' : ∀ c ∈ t.head?, isSpace c = false)
    (same : x ++ s = y ++ t) : s = t := (run_cancel left right stop stop' same).2

end Patterns

section Fronts

variable {unicode : Char → Bool} {g : Pattern.Groups} {rest x y : Str} {d : Char}

/-- A text up to its first quote, with the last character that is not in a gap. -/
structure Front (c : Char) (x w : Str) : Prop where
  spaces : ∀ d ∈ w, isSpace d = true
  unquoted : '\'' ∉ x ++ w
  last : x.getLast? = some c
  solid : isSpace c = false

/-- The texts before the first quotes end in the same character, and the values are the same. -/
theorem front_cancel (left : Front c x u) (right : Front d y w)
    (each : ∀ c ∈ v, isSelectorChar unicode c = true)
    (each' : ∀ c ∈ k, isSelectorChar unicode c = true)
    (same : x ++ (u ++ (quoted v ++ s)) = y ++ (w ++ (quoted k ++ t))) :
    c = d ∧ v = k ∧ s = t := by
  have unquoted : ∀ {z : Str}, '\'' ∉ z → ∀ c ∈ z, (c != '\'') = true := by
    intro z none c inside
    rw [bne_iff_ne]
    rintro rfl
    exact none inside
  have quote : ∀ {z w : Str}, ∀ c ∈ (quoted z ++ w).head?, (c != '\'') = false := by
    rintro z w c ⟨⟩
    rfl
  rw [← List.append_assoc, ← List.append_assoc y] at same
  obtain ⟨fronts, rest⟩ := run_cancel (unquoted left.unquoted) (unquoted right.unquoted) quote quote
    same
  have inner : v ++ ('\'' :: s) = k ++ ('\'' :: t) := by simpa [quoted] using rest
  have stop : ∀ {z : Str}, ∀ c ∈ ('\'' :: z).head?, isSelectorChar unicode c = false := by
    rintro z c ⟨⟩
    rfl
  obtain ⟨values, rest⟩ := run_cancel each each' stop stop inner
  refine ⟨?_, values, (List.cons.inj rest).2⟩
  have reversed := congrArg List.reverse fronts
  rw [List.reverse_append, List.reverse_append] at reversed
  have stopLeft : ∀ e ∈ x.reverse.head?, isSpace e = false := by
    rw [List.head?_reverse, left.last]
    rintro e ⟨⟩
    exact left.solid
  have stopRight : ∀ e ∈ y.reverse.head?, isSpace e = false := by
    rw [List.head?_reverse, right.last]
    rintro e ⟨⟩
    exact right.solid
  obtain ⟨_, ends⟩ := run_cancel (by simpa using left.spaces) (by simpa using right.spaces) stopLeft
    stopRight reversed
  have lasts := left.last
  rw [List.reverse_injective ends, right.last] at lasts
  exact (Option.some.inj lasts).symm

/-- The last letter of the operator. -/
def CompareOp.last : CompareOp → Char
  | .eq => '='
  | .ne => '='
  | .contains => 's'
  | .startsWith => 'h'
  | .endsWith => 'h'

theorem no_quote_of_space (spaces : ∀ c ∈ w, isSpace c = true) : '\'' ∉ w := by
  intro inside
  exact absurd (spaces _ inside) (by decide)

theorem no_quote_of_chars (each : ∀ c ∈ v, isSelectorChar unicode c = true) : '\'' ∉ v := by
  intro inside
  have stop : isSelectorChar unicode '\'' = false := rfl
  rw [each _ inside] at stop
  cases stop

theorem no_quote_of_key (key : IsKey k) : '\'' ∉ k := by
  intro inside
  have word := key.2 _ inside
  unfold IsWordChar at word
  revert word
  decide

theorem compare_front {op : CompareOp} (key : IsKey k) (text : CompareText Gap rest op s) :
    ∃ x w, k ++ s = x ++ (w ++ rest) ∧ Front op.last x w := by
  have noQuote := no_quote_of_key key
  cases text with
  | @eq u v left right =>
    refine ⟨k ++ (u ++ "==".toList), v, by simp, right.spaces, ?_, ?_, by decide⟩
    · simp [noQuote, left.no_quote, right.no_quote]
    · exact last_append (last_append rfl)
  | @ne u v left right =>
    refine ⟨k ++ (u ++ "!=".toList), v, by simp, right.spaces, ?_, ?_, by decide⟩
    · simp [noQuote, left.no_quote, right.no_quote]
    · exact last_append (last_append rfl)
  | @contains u v left _ right =>
    refine ⟨k ++ (u ++ "contains".toList), v, by simp, right.spaces, ?_, ?_, by decide⟩
    · simp [noQuote, left.no_quote, right.no_quote]
    · exact last_append (last_append rfl)
  | @startsWith u m v left _ middle _ right =>
    refine ⟨k ++ (u ++ ("starts".toList ++ (m ++ "with".toList))), v, by simp, right.spaces, ?_, ?_,
      by decide⟩
    · simp [noQuote, left.no_quote, middle.no_quote, right.no_quote]
    · exact last_append (last_append (last_append (last_append rfl)))
  | @endsWith u m v left _ middle _ right =>
    refine ⟨k ++ (u ++ ("ends".toList ++ (m ++ "with".toList))), v, by simp, right.spaces, ?_, ?_,
      by decide⟩
    · simp [noQuote, left.no_quote, middle.no_quote, right.no_quote]
    · exact last_append (last_append (last_append (last_append rfl)))

theorem member_front {negated : Bool} (key : IsKey k)
    (text : MemberText Gap ('{' :: (w ++ rest)) negated s) (gap : Gap w) :
    ∃ x, k ++ s = x ++ (w ++ rest) ∧ Front '{' x w := by
  have noQuote := no_quote_of_key key
  cases text with
  | @isIn u v left _ right =>
    refine ⟨k ++ (u ++ ("in".toList ++ (v ++ ['{']))), by simp, gap.spaces, ?_, ?_, by decide⟩
    · simp [noQuote, left.no_quote, right.no_quote, gap.no_quote]
    · exact last_append (last_append (last_append (last_append rfl)))
  | @notIn u m v left _ middle _ right =>
    refine ⟨k ++ (u ++ ("not".toList ++ (m ++ ("in".toList ++ (v ++ ['{']))))), by simp, gap.spaces,
      ?_, ?_, by decide⟩
    · simp [noQuote, left.no_quote, middle.no_quote, right.no_quote, gap.no_quote]
    · exact last_append (last_append (last_append (last_append (last_append (last_append rfl)))))

theorem keyVal_front (spells : Pattern.Spells (key_val_re unicode) u g) :
    ∃ x o v, u = x ++ (o ++ (quoted v ++ [])) ∧ Front '=' x o ∧ v ≠ [] ∧
      ∀ c ∈ v, isSelectorChar unicode c = true := by
  obtain ⟨k, _, _, _, rfl, rfl, key, spells⟩ := Pattern.spells_seq.mp spells
  obtain ⟨o, _, _, _, rfl, rfl, gap, spells⟩ := Pattern.spells_seq.mp spells
  obtain ⟨e, _, _, _, rfl, rfl, sign, spells⟩ := Pattern.spells_seq.mp spells
  obtain ⟨q, _, _, _, rfl, rfl, equals, spells⟩ := Pattern.spells_seq.mp spells
  obtain ⟨o', _, _, _, rfl, rfl, gap', spells⟩ := Pattern.spells_seq.mp spells
  obtain ⟨a, _, _, _, rfl, rfl, opening, spells⟩ := Pattern.spells_seq.mp spells
  obtain ⟨v, b, _, _, rfl, rfl, value, closing⟩ := Pattern.spells_seq.mp spells
  obtain ⟨_, _, sign⟩ := Pattern.spells_group.mp sign
  obtain ⟨c, member, rfl, _⟩ := Pattern.spells_chars.mp sign
  obtain ⟨rfl, _⟩ := Pattern.spells_text.mp equals
  obtain ⟨rfl, _⟩ := Pattern.spells_text.mp opening
  obtain ⟨rfl, _⟩ := Pattern.spells_text.mp closing
  obtain ⟨_, chars, _⟩ := spells_word key
  obtain ⟨some, chars', _⟩ := spells_word value
  obtain ⟨_, noQuote, _⟩ := spells_space gap
  obtain ⟨spaces, noQuote', _⟩ := spells_space gap'
  rw [Bool.or_eq_true, beq_iff_eq, beq_iff_eq] at member
  have other : '\'' ≠ c := by rcases member with rfl | rfl <;> decide
  refine ⟨k ++ (o ++ [c, '=']), o', v, by simp [quoted], ⟨spaces, ?_, ?_, by decide⟩, some, chars'⟩
  · simp [no_quote_of_chars chars, noQuote, noQuote', other]
  · exact last_append (last_append rfl)

theorem spells_with (unquoted : '\'' ∉ t) (spells : Pattern.Spells (.seq (.text t)
    (.seq (.chars isSpace) (.text "with".toList))) u g) : '\'' ∉ u ∧ u.getLast? = some 'h' := by
  obtain ⟨a, _, _, _, rfl, rfl, word, spells⟩ := Pattern.spells_seq.mp spells
  obtain ⟨b, e, _, _, rfl, rfl, space, with_⟩ := Pattern.spells_seq.mp spells
  obtain ⟨rfl, _⟩ := Pattern.spells_text.mp word
  obtain ⟨rfl, _⟩ := Pattern.spells_text.mp with_
  obtain ⟨c, member, rfl, _⟩ := Pattern.spells_chars.mp space
  have noQuote := no_quote_of_space (List.forall_mem_singleton.mpr member)
  rw [List.mem_singleton] at noQuote
  exact ⟨by simp [unquoted, noQuote], last_append (last_append rfl)⟩

theorem str_front (spells : Pattern.Spells (str_re unicode) u g) :
    ∃ x c o v, u = x ++ (o ++ (quoted v ++ [])) ∧ Front c x o ∧ (c = 's' ∨ c = 'h') ∧ v ≠ [] ∧
      ∀ c ∈ v, isSelectorChar unicode c = true := by
  obtain ⟨k, _, _, _, rfl, rfl, key, spells⟩ := Pattern.spells_seq.mp spells
  obtain ⟨o, _, _, _, rfl, rfl, gap, spells⟩ := Pattern.spells_seq.mp spells
  obtain ⟨e, _, _, _, rfl, rfl, operator, spells⟩ := Pattern.spells_seq.mp spells
  obtain ⟨o', _, _, _, rfl, rfl, gap', spells⟩ := Pattern.spells_seq.mp spells
  obtain ⟨a, _, _, _, rfl, rfl, opening, spells⟩ := Pattern.spells_seq.mp spells
  obtain ⟨v, b, _, _, rfl, rfl, value, closing⟩ := Pattern.spells_seq.mp spells
  obtain ⟨rfl, _⟩ := Pattern.spells_text.mp opening
  obtain ⟨rfl, _⟩ := Pattern.spells_text.mp closing
  obtain ⟨_, chars, _⟩ := spells_word key
  obtain ⟨some, chars', _⟩ := spells_word value
  obtain ⟨_, noQuote, _⟩ := spells_space gap
  obtain ⟨spaces, noQuote', _⟩ := spells_space gap'
  have word : '\'' ∉ e ∧ ∃ c, e.getLast? = .some c ∧ (c = 's' ∨ c = 'h') := by
    obtain ⟨_, _, operator⟩ := Pattern.spells_group.mp operator
    rcases Pattern.spells_alt.mp operator with contains | operator
    · obtain ⟨rfl, _⟩ := Pattern.spells_text.mp contains
      exact ⟨by decide, 's', rfl, Or.inl rfl⟩
    · rcases Pattern.spells_alt.mp operator with starts | ends
      · obtain ⟨noQuoteWord, last⟩ := spells_with (by decide) starts
        exact ⟨noQuoteWord, 'h', last, Or.inr rfl⟩
      · obtain ⟨noQuoteWord, last⟩ := spells_with (by decide) ends
        exact ⟨noQuoteWord, 'h', last, Or.inr rfl⟩
  obtain ⟨noQuoteWord, c, last, lasts⟩ := word
  have solid : isSpace c = false := by rcases lasts with rfl | rfl <;> decide
  refine ⟨k ++ (o ++ e), c, o', v, by simp [quoted], ⟨spaces, ?_, ?_, solid⟩, lasts, some, chars'⟩
  · simp [no_quote_of_chars chars, noQuote, noQuote', noQuoteWord]
  · exact last_append (last_append last)

theorem in_front (spells : Pattern.Spells (in_re unicode) u g) :
    ∃ x o v o' t h, u = x ++ (o ++ (quoted v ++ (o' ++ t))) ∧ Front '{' x o ∧ v ≠ [] ∧
      (∀ c ∈ v, isSelectorChar unicode c = true) ∧ (∀ c ∈ o', isSpace c = true) ∧
      Pattern.Spells (moreValuesPattern unicode) t h := by
  obtain ⟨k, _, _, _, rfl, rfl, key, spells⟩ := Pattern.spells_seq.mp spells
  obtain ⟨s, _, _, _, rfl, rfl, space, spells⟩ := Pattern.spells_seq.mp spells
  obtain ⟨n, _, _, _, rfl, rfl, negation, spells⟩ := Pattern.spells_seq.mp spells
  obtain ⟨i, _, _, _, rfl, rfl, word, spells⟩ := Pattern.spells_seq.mp spells
  obtain ⟨o, _, _, _, rfl, rfl, gap, spells⟩ := Pattern.spells_seq.mp spells
  obtain ⟨b, _, _, _, rfl, rfl, bracket, spells⟩ := Pattern.spells_seq.mp spells
  obtain ⟨o', _, _, _, rfl, rfl, gap', spells⟩ := Pattern.spells_seq.mp spells
  obtain ⟨q, _, _, _, rfl, rfl, value, spells⟩ := Pattern.spells_seq.mp spells
  obtain ⟨o'', t, _, h, rfl, rfl, gap'', more⟩ := Pattern.spells_seq.mp spells
  obtain ⟨c, isSpace_, rfl, _⟩ := Pattern.spells_chars.mp space
  obtain ⟨rfl, _⟩ := Pattern.spells_text.mp word
  obtain ⟨rfl, _⟩ := Pattern.spells_text.mp bracket
  obtain ⟨_, chars, _⟩ := spells_word key
  obtain ⟨_, noQuote, _⟩ := spells_space gap
  obtain ⟨spaces, noQuote', _⟩ := spells_space gap'
  obtain ⟨v, rfl, some, chars', _⟩ := spells_quoted value
  have noQuoteSpace := no_quote_of_space (List.forall_mem_singleton.mpr isSpace_)
  have noQuoteNegation : '\'' ∉ n := by
    rcases Pattern.spells_opt.mp negation with one | ⟨rfl, _⟩
    · obtain ⟨_, _, one⟩ := Pattern.spells_group.mp one
      obtain ⟨a, b, _, _, rfl, rfl, word, space⟩ := Pattern.spells_seq.mp one
      obtain ⟨rfl, _⟩ := Pattern.spells_text.mp word
      obtain ⟨d, member, rfl, _⟩ := Pattern.spells_chars.mp space
      have noQuoteGap := no_quote_of_space (List.forall_mem_singleton.mpr member)
      rw [List.mem_singleton] at noQuoteGap
      simp [noQuoteGap]
    · exact List.not_mem_nil
  refine ⟨k ++ ([c] ++ (n ++ ("in".toList ++ (o ++ ['{'])))), o', v, o'', t, h, by simp,
    ⟨spaces, ?_, ?_, by decide⟩, some, chars', (spells_space gap'').1, more⟩
  · rw [List.mem_singleton] at noQuoteSpace
    simp [no_quote_of_chars chars, noQuote, noQuote', noQuoteSpace, noQuoteNegation]
  · exact last_append (last_append (last_append (last_append (last_append rfl))))

theorem value_chars (unicode : Char → Bool) (value : IsValue v) : ∀ c ∈ v, isSelectorChar unicode c = true :=
  fun c inside => selectorChar_word (value c inside)

/-- `(,\s?'[\w.\-\/]+'\s?)*` -/
abbrev valuesPattern (unicode : Char → Bool) : Pattern :=
  .star (.seq (.text [',']) (.seq spacePattern (.seq (quotedPattern unicode) spacePattern)))

theorem values_head {h : Pattern.Groups} (items : Pattern.Spells (valuesPattern unicode) t h) :
    ∀ c ∈ (t ++ (['}'] ++ y)).head?, isSpace c = false := by
  rcases Pattern.spells_star.mp items with ⟨rfl, _⟩ | ⟨i, a, _, _, _, rfl, _, item, _⟩
  · rintro c ⟨⟩
    decide
  · obtain ⟨comma, _, _, _, rfl, _, spelledComma, _⟩ := Pattern.spells_seq.mp item
    obtain ⟨rfl, _⟩ := Pattern.spells_text.mp spelledComma
    rintro c ⟨⟩
    decide

/-- The values of a list that is read have characters. -/
theorem more_nonempty {h : Pattern.Groups} (spells : Pattern.Spells (moreValuesPattern unicode) t h)
    (text : MoreText Gap vs s) (whole : s = t ++ y) : [] ∉ vs := by
  obtain ⟨a, b, g, _, rfl, -, items, bracket⟩ := Pattern.spells_seq.mp spells
  obtain ⟨rfl, _⟩ := Pattern.spells_text.mp bracket
  clear spells
  induction text generalizing a g with
  | last => exact List.not_mem_nil
  | @more v s u w vs left value right others ih =>
    rcases Pattern.spells_star.mp items with ⟨rfl, _⟩ | ⟨i, a, _, _, _, rfl, _, item, behind⟩
    · cases whole
    · obtain ⟨comma, _, _, _, rfl, _, spelledComma, item⟩ := Pattern.spells_seq.mp item
      obtain ⟨o, _, _, _, rfl, _, gap, item⟩ := Pattern.spells_seq.mp item
      obtain ⟨q, o', _, _, rfl, _, spelledValue, gap'⟩ := Pattern.spells_seq.mp item
      obtain ⟨rfl, _⟩ := Pattern.spells_text.mp spelledComma
      obtain ⟨v', rfl, some, chars, _⟩ := spells_quoted spelledValue
      obtain ⟨spaces, noQuote, _⟩ := spells_space gap
      obtain ⟨spaces', _, _⟩ := spells_space gap'
      have begun : Front ',' [','] u := ⟨left.spaces, by simp [left.no_quote], rfl, by decide⟩
      have begun' : Front ',' [','] o := ⟨spaces, by simp [noQuote], rfl, by decide⟩
      have same : [','] ++ (u ++ (quoted v ++ (w ++ s))) =
          [','] ++ (o ++ (quoted v' ++ (o' ++ (a ++ (['}'] ++ y))))) := by
        simpa using whole
      obtain ⟨_, rfl, rest⟩ := front_cancel begun begun' (value_chars _ value) chars same
      have stop : ∀ c ∈ s.head?, isSpace c = false := by
        intro c found
        obtain ⟨d, first, solid⟩ := more_solid others
        rwa [Option.mem_unique found first]
      have rests := (run_cancel right.spaces spaces' stop (values_head behind) rest).2
      rw [List.mem_cons, not_or]
      exact ⟨some.symm, ih a _ behind (by simpa using rests)⟩

end Fronts

section Unread

variable {unicode : Char → Bool} {op : CompareOp} {negated : Bool}

theorem quote_inside {x o z : Str} : '\'' ∈ x ++ (o ++ (quoted v ++ z)) := by
  simp [quoted]

theorem keyVal_compare_none (key : IsKey k) (value : IsValue v)
    (text : CompareText Gap (quoted v) op s) (bad : op.last ≠ '=' ∨ v = []) :
    (key_val_re unicode).reMatch (k ++ s) = none := by
  apply Pattern.reMatch_none
  intro u y g whole spells
  obtain ⟨x, o, v', rfl, front, some, chars⟩ := keyVal_front spells
  obtain ⟨x', w, same, front'⟩ := compare_front key text
  rw [whole] at same
  have cancelled := front_cancel (s := y) (t := []) front front' chars
    (value_chars unicode value) (by simpa using same)
  obtain ⟨lasts, values, _⟩ := cancelled
  rcases bad with other | empty
  · exact other lasts.symm
  · exact some (values.trans empty)

theorem str_compare_none (key : IsKey k) (text : CompareText Gap (quoted []) op s) :
    (str_re unicode).reMatch (k ++ s) = none := by
  apply Pattern.reMatch_none
  intro u y g whole spells
  obtain ⟨x, c, o, v', rfl, front, _, some, chars⟩ := str_front spells
  obtain ⟨x', w, same, front'⟩ := compare_front key text
  rw [whole] at same
  have cancelled := front_cancel (s := y) (t := []) front front' chars (List.forall_mem_nil _)
    (by simpa using same)
  exact some cancelled.2.1

theorem in_compare_none (key : IsKey k) (value : IsValue v)
    (text : CompareText Gap (quoted v) op s) : (in_re unicode).reMatch (k ++ s) = none := by
  apply Pattern.reMatch_none
  intro u y g whole spells
  obtain ⟨x, o, v', o', t, h, rfl, front, _, chars, _, _⟩ := in_front spells
  obtain ⟨x', w, same, front'⟩ := compare_front key text
  rw [whole] at same
  have cancelled := front_cancel (s := o' ++ t ++ y) (t := []) front front' chars
    (value_chars unicode value) (by simpa using same)
  obtain ⟨lasts, _⟩ := cancelled
  cases op <;> exact absurd lasts (by decide)

/-- Without a value a list has no quotes. -/
theorem member_unquoted (key : IsKey k) (gap : Gap w)
    (text : MemberText Gap ('{' :: (w ++ ['}'])) negated s) : '\'' ∉ k ++ s := by
  obtain ⟨x, whole, front⟩ := member_front key text gap
  rw [whole, ← List.append_assoc, List.mem_append, not_or]
  exact ⟨front.unquoted, by decide⟩

theorem keyVal_member_none (key : IsKey k) (values : ListText Gap vs t)
    (text : MemberText Gap t negated s) : (key_val_re unicode).reMatch (k ++ s) = none := by
  apply Pattern.reMatch_none
  intro u y g whole spells
  obtain ⟨x, o, v', rfl, front, some, chars⟩ := keyVal_front spells
  cases values with
  | empty gap =>
    apply member_unquoted key gap text
    rw [whole]
    exact List.mem_append_left _ quote_inside
  | some gap value _ _ =>
    obtain ⟨x', same, front'⟩ := member_front key text gap
    rw [whole] at same
    have cancelled := front_cancel (s := y) front front' chars
      (value_chars unicode value) (by simpa using same)
    exact absurd cancelled.1 (by decide)

theorem str_member_none (key : IsKey k) (values : ListText Gap vs t)
    (text : MemberText Gap t negated s) : (str_re unicode).reMatch (k ++ s) = none := by
  apply Pattern.reMatch_none
  intro u y g whole spells
  obtain ⟨x, c, o, v', rfl, front, lasts, some, chars⟩ := str_front spells
  cases values with
  | empty gap =>
    apply member_unquoted key gap text
    rw [whole]
    exact List.mem_append_left _ quote_inside
  | some gap value _ _ =>
    obtain ⟨x', same, front'⟩ := member_front key text gap
    rw [whole] at same
    have cancelled := front_cancel (s := y) front front' chars
      (value_chars unicode value) (by simpa using same)
    rcases lasts with rfl | rfl <;> exact absurd cancelled.1 (by decide)

theorem in_member_none (key : IsKey k) (values : ListText Gap vs t)
    (text : MemberText Gap t negated s) (bad : vs = [] ∨ [] ∈ vs) :
    (in_re unicode).reMatch (k ++ s) = none := by
  apply Pattern.reMatch_none
  intro u y g whole spells
  obtain ⟨x, o, v', o', t', h, rfl, front, some, chars, spaces, more⟩ := in_front spells
  cases values with
  | empty gap =>
    apply member_unquoted key gap text
    rw [whole]
    exact List.mem_append_left _ quote_inside
  | @some v s' u w vs gap value right others =>
    obtain ⟨x', same, front'⟩ := member_front key text gap
    rw [whole] at same
    have cancelled := front_cancel (s := o' ++ (t' ++ y)) front front' chars
      (value_chars unicode value) (by simpa using same)
    obtain ⟨_, values, rest⟩ := cancelled
    have stop : ∀ c ∈ s'.head?, isSpace c = false := by
      intro c found
      obtain ⟨d, first, solid⟩ := more_solid others
      rwa [Option.mem_unique found first]
    have stop' : ∀ c ∈ (t' ++ y).head?, isSpace c = false := by
      obtain ⟨a, b, _, _, rfl, _, items, bracket⟩ := Pattern.spells_seq.mp more
      obtain ⟨rfl, _⟩ := Pattern.spells_text.mp bracket
      rw [List.append_assoc]
      exact values_head items
    have rests := (run_cancel spaces right.spaces stop' stop rest).2
    have nonEmpty := more_nonempty more others rests.symm
    rcases bad with none | empty
    · cases none
    · rcases List.mem_cons.mp empty with same | later
      · exact some (values.trans same.symm)
      · exact nonEmpty later

end Unread

section Reads

variable {unicode : Char → Bool}

theorem head_gap (gap : Gap u) (stop : ∀ c ∈ w.head?, isSpace c = false) :
    (spacePattern.run (u ++ w)).head? = some ([], w) := by
  rcases gap with rfl | rfl
  · exact Pattern.head_opt_none stop
  · exact Pattern.head_opt_some (by decide)

theorem head_word {n : Nat} (key : IsKey k) (stop : ∀ c ∈ s.head?, isSelectorChar unicode c = false) :
    ((wordPattern unicode n).run (k ++ s)).head? = some ([(n, k)], s) :=
  Pattern.head_group_plus key.1 (value_chars _ key.2) stop

theorem gap_stop (gap : Gap u) (stop : ∀ c ∈ w.head?, isSelectorChar unicode c = false) :
    ∀ c ∈ (u ++ w).head?, isSelectorChar unicode c = false := by
  rcases gap with rfl | rfl
  · exact stop
  · rintro c ⟨⟩
    rfl

theorem quoted_head : ∀ c ∈ (quoted v ++ s).head?, isSpace c = false := by
  rintro c ⟨⟩
  decide

/-- A quoted value with characters is read as a group. -/
theorem head_value (unicode : Char → Bool) {n : Nat} (value : IsValue v) (some : v ≠ []) :
    ((Pattern.seq (.text ['\'']) (.seq (wordPattern unicode n) (.text ['\'']))).run
      (quoted v ++ s)).head? = .some ([(n, v)], s) := by
  have stop : ∀ c ∈ (['\''] ++ s).head?, isSelectorChar unicode c = false := by
    rintro c ⟨⟩
    rfl
  have read : ((Pattern.seq (.text ['\'']) (.seq (wordPattern unicode n) (.text ['\'']))).run
      (['\''] ++ (v ++ (['\''] ++ s)))).head? = .some ([] ++ ([(n, v)] ++ []), s) := by
    apply Pattern.head_seq Pattern.head_text
    exact Pattern.head_seq (head_word ⟨some, value⟩ stop) Pattern.head_text
  simpa [quoted] using read

theorem has_read (key : IsKey k) :
    (has_re unicode).reMatch ("has(".toList ++ (k ++ [')'])) = some [(1, k)] := by
  have stop : ∀ c ∈ ([')'] ++ []).head?, isSelectorChar unicode c = false := by
    rintro c ⟨⟩
    rfl
  have closing : ((Pattern.text [')']).run ([')'] ++ [])).head? = some ([], []) := Pattern.head_text
  exact Pattern.reMatch_head
    (Pattern.head_seq Pattern.head_text (Pattern.head_seq (head_word key stop) closing))

theorem has_none (absent : '(' ∉ s) : (has_re unicode).reMatch s = none := by
  apply Pattern.reMatch_none
  intro u y g whole spells
  obtain ⟨a, _, _, _, rfl, _, word, _⟩ := Pattern.spells_seq.mp spells
  obtain ⟨rfl, _⟩ := Pattern.spells_text.mp word
  exact absent (by simp [whole])

theorem keyVal_read (key : IsKey k) (value : IsValue v) (some : v ≠ []) (left : Gap u)
    (right : Gap w) (sign : c = '=' ∨ c = '!') :
    (key_val_re unicode).reMatch (k ++ (u ++ (c :: '=' :: (w ++ quoted v)))) =
      .some [(1, k), (2, [c]), (3, v)] := by
  have stop : ∀ d ∈ (c :: '=' :: (w ++ quoted v)).head?, isSelectorChar unicode d = false := by
    rintro d ⟨⟩
    rcases sign with rfl | rfl <;> rfl
  have solid : ∀ d ∈ (c :: '=' :: (w ++ quoted v)).head?, isSpace d = false := by
    rintro d ⟨⟩
    rcases sign with rfl | rfl <;> decide
  have member : (c == '=' || c == '!') = true := by rcases sign with rfl | rfl <;> rfl
  have signed : ((Pattern.group 2 (.chars fun c => c == '=' || c == '!')).run
      ([c] ++ '=' :: (w ++ quoted v))).head? = .some ([(2, [c])], '=' :: (w ++ quoted v)) :=
    Pattern.head_group (Pattern.head_chars member)
  have equals : ((Pattern.text ['=']).run (['='] ++ (w ++ quoted v))).head? =
      .some ([], w ++ quoted v) := Pattern.head_text
  have ended := head_value unicode (n := 3) (s := []) value some
  have gapped := head_gap right (quoted_head (v := v) (s := []))
  rw [List.append_nil] at ended gapped
  have behind := Pattern.head_seq signed (Pattern.head_seq equals (Pattern.head_seq gapped ended))
  have front := Pattern.head_seq (head_word (n := 1) key (gap_stop left stop))
    (Pattern.head_seq (head_gap left solid) behind)
  exact Pattern.reMatch_head front

/-- The words of the operators with substrings. -/
abbrev operatorPattern : Pattern := .alt (.text "contains".toList)
  (.alt (.seq (.text "starts".toList) (.seq (.chars isSpace) (.text "with".toList)))
    (.seq (.text "ends".toList) (.seq (.chars isSpace) (.text "with".toList))))

theorem str_read (unicode : Char → Bool) {x : Str} (key : IsKey k) (value : IsValue v) (some : v ≠ []) (right : Gap w)
    (operator : ((Pattern.group 2 operatorPattern).run x).head? = .some ([(2, t)], w ++ quoted v))
    (solid : ∀ c ∈ x.head?, isSpace c = false) :
    (str_re unicode).reMatch (k ++ ([' '] ++ x)) = .some [(1, k), (2, t), (3, v)] := by
  have stop : ∀ d ∈ ([' '] ++ x).head?, isSelectorChar unicode d = false := by
    rintro d ⟨⟩
    rfl
  have ended := head_value unicode (n := 3) (s := []) value some
  have gapped := head_gap right (quoted_head (v := v) (s := []))
  rw [List.append_nil] at ended gapped
  have behind := Pattern.head_seq operator (Pattern.head_seq gapped ended)
  have front := Pattern.head_seq (head_word (n := 1) key stop)
    (Pattern.head_seq (head_gap (Or.inr rfl) solid) behind)
  exact Pattern.reMatch_head front

theorem operator_contains {z : Str} : ((Pattern.group 2 operatorPattern).run
    ("contains".toList ++ z)).head? = some ([(2, "contains".toList)], z) :=
  Pattern.head_group (Pattern.head_alt_left Pattern.head_text)

/-- The texts of the operators of two words, with one space between them. -/
def twoWords (t : Str) : Str := t ++ ([' '] ++ "with".toList)

theorem head_with {z : Str} : ((Pattern.seq (.text t) (.seq (.chars isSpace)
    (.text "with".toList))).run (twoWords t ++ z)).head? = some ([], z) := by
  have space : ((Pattern.chars isSpace).run ([' '] ++ ("with".toList ++ z))).head? =
      some ([], "with".toList ++ z) := Pattern.head_chars (by decide)
  rw [twoWords, List.append_assoc, List.append_assoc]
  exact Pattern.head_seq Pattern.head_text (Pattern.head_seq space Pattern.head_text)

theorem operator_starts {z : Str} : ((Pattern.group 2 operatorPattern).run
    (twoWords "starts".toList ++ z)).head? = some ([(2, twoWords "starts".toList)], z) := by
  apply Pattern.head_group
  rw [Pattern.head_alt_right rfl]
  exact Pattern.head_alt_left head_with

theorem operator_ends {z : Str} : ((Pattern.group 2 operatorPattern).run
    (twoWords "ends".toList ++ z)).head? = some ([(2, twoWords "ends".toList)], z) := by
  apply Pattern.head_group
  rw [Pattern.head_alt_right rfl, Pattern.head_alt_right rfl]
  exact head_with

theorem head_quoted (unicode : Char → Bool) (value : IsValue v) (some : v ≠ []) :
    ((quotedPattern unicode).run (quoted v ++ s)).head? = .some ([], s) := by
  have stop : ∀ c ∈ (['\''] ++ s).head?, isSelectorChar unicode c = false := by
    rintro c ⟨⟩
    rfl
  have read : ((quotedPattern unicode).run (['\''] ++ (v ++ (['\''] ++ s)))).head? =
      .some ([] ++ ([] ++ []), s) := by
    apply Pattern.head_seq Pattern.head_text
    exact Pattern.head_seq (Pattern.head_plus some (value_chars _ value) stop) Pattern.head_text
  simpa [quoted] using read

theorem more_stop {G : Str → Prop} (text : MoreText G vs s) : ∀ c ∈ s.head?, isSpace c = false := by
  intro c found
  obtain ⟨d, first, solid⟩ := more_solid text
  rwa [Option.mem_unique found first]

theorem head_values (text : MoreText Gap vs s) (some : [] ∉ vs) :
    ((valuesPattern unicode).run s).head? = .some ([], ['}']) := by
  induction text with
  | last => exact Pattern.head_star_stop rfl
  | @more v s u w vs left value right others ih =>
    rw [List.mem_cons, not_or] at some
    have behind := Pattern.head_seq (head_quoted unicode value (Ne.symm some.1))
      (head_gap right (more_stop others))
    have item := Pattern.head_seq (Pattern.head_text (t := [',']))
      (Pattern.head_seq (head_gap left quoted_head) behind)
    apply Pattern.head_star_more item _ (ih some.2)
    simp only [List.length_append, List.length_cons]
    omega

theorem in_read {negated : Bool} (key : IsKey k) (values : ListText Gap vs t)
    (text : MemberText Gap t negated s) (nonEmpty : vs ≠ []) (some : [] ∉ vs) :
    (in_re unicode).reMatch (k ++ s) =
      .some ((1, k) :: if negated then [(2, "not ".toList)] else []) := by
  cases values with
  | empty => exact (nonEmpty rfl).elim
  | @some v s' u w vs left value right others =>
    rw [List.mem_cons, not_or] at some
    have ended : ((moreValuesPattern unicode).run s').head? = .some ([] ++ [], []) :=
      Pattern.head_seq (head_values others some.2) (Pattern.head_text (w := []))
    have behind := Pattern.head_seq (head_quoted unicode value (Ne.symm some.1))
      (Pattern.head_seq (head_gap right (more_stop others)) ended)
    have list := Pattern.head_seq (Pattern.head_text (t := ['{']))
      (Pattern.head_seq (head_gap left quoted_head) behind)
    have space : ∀ z : Str, ((Pattern.chars isSpace).run (' ' :: z)).head? = .some ([], z) :=
      fun z => Pattern.head_chars (by decide)
    have stop : ∀ z : Str, ∀ d ∈ (' ' :: z).head?, isSelectorChar unicode d = false := by
      rintro z d ⟨⟩
      rfl
    have brace : ∀ z : Str, ∀ d ∈ (['{'] ++ z).head?, isSpace d = false := by
      rintro z d ⟨⟩
      decide
    cases text with
    | @isIn x y gap some gap' =>
      obtain rfl := gap.resolve_left some
      have absent : ∀ z : Str, ((Pattern.opt (.group 2 (.seq (.text "not".toList)
          (.chars isSpace)))).run ("in".toList ++ z)).head? = .some ([], "in".toList ++ z) :=
        fun _ => rfl
      have word := Pattern.head_seq (Pattern.head_text (t := "in".toList))
        (Pattern.head_seq (head_gap gap' (brace _)) list)
      have front := Pattern.head_seq (head_word (n := 1) key (stop _))
        (Pattern.head_seq (space _) (Pattern.head_seq (absent _) word))
      exact Pattern.reMatch_head front
    | @notIn x m y gap some middle some' gap' =>
      obtain rfl := gap.resolve_left some
      obtain rfl := middle.resolve_left some'
      have negation : ∀ z : Str, ((Pattern.opt (.group 2 (.seq (.text "not".toList)
          (.chars isSpace)))).run ("not ".toList ++ z)).head? = .some ([(2, "not ".toList)], z) := by
        intro z
        have inner := Pattern.head_seq (Pattern.head_text (t := "not".toList)) (space z)
        exact Pattern.head_alt_left (Pattern.head_group inner)
      have word := Pattern.head_seq (Pattern.head_text (t := "in".toList))
        (Pattern.head_seq (head_gap gap' (brace _)) list)
      have front := Pattern.head_seq (head_word (n := 1) key (stop _))
        (Pattern.head_seq (space _) (Pattern.head_seq (negation _) word))
      exact Pattern.reMatch_head front

end Reads

section Values

variable {unicode : Char → Bool}

/-- The values that are found in a text. -/
def Finds (unicode : Char → Bool) (w : Str) (vs : List Str) : Prop :=
  ∀ fuel, w.length ≤ fuel →
    ((values_re unicode).findall fuel w).map (fun m => groupText m 1) = vs

theorem finds_nil : Finds unicode [] [] := by
  intro fuel _
  cases fuel <;> rfl

theorem finds_skip (unicode : Char → Bool) (unquoted : '\'' ∉ u) (finds : Finds unicode w vs) :
    Finds unicode (u ++ w) vs := by
  induction u with
  | nil => exact finds
  | cons c u ih =>
    rw [List.mem_cons, not_or] at unquoted
    intro fuel enough
    cases fuel with
    | zero => simp at enough
    | succ fuel =>
      have other : (c == '\'') = false := by simpa using Ne.symm unquoted.1
      have nothing : ((values_re unicode).run (c :: (u ++ w))).head? = none := by
        simp [values_re, Pattern.run, Pattern.text, Pattern.followed, other]
      rw [List.cons_append, Pattern.findall, nothing]
      apply ih unquoted.2 fuel
      rw [List.cons_append, List.length_cons] at enough
      omega

theorem finds_quoted (unicode : Char → Bool) (value : IsValue v) (finds : Finds unicode w vs) :
    Finds unicode (quoted v ++ w) (v :: vs) := by
  intro fuel enough
  have starred : ((Pattern.star (.chars (isSelectorChar unicode))).run (v ++ ('\'' :: w))).head? =
      some ([], '\'' :: w) := by
    rw [Pattern.head_star_chars, List.dropWhile_append_of_pos (value_chars _ value)]
    rfl
  have read : ((values_re unicode).run (['\''] ++ (v ++ (['\''] ++ w)))).head? =
      some ([] ++ ([(1, v)] ++ []), w) := by
    apply Pattern.head_seq Pattern.head_text
    exact Pattern.head_seq (Pattern.head_group starred) Pattern.head_text
  have whole : quoted v ++ w = '\'' :: (v ++ (['\''] ++ w)) := by simp [quoted]
  rw [whole] at enough ⊢
  cases fuel with
  | zero => simp at enough
  | succ fuel =>
    simp only [List.length_cons, List.length_append] at enough
    rw [List.singleton_append] at read
    rw [Pattern.findall, read, List.map_cons, finds fuel (by omega)]
    rfl

theorem finds_more (text : MoreText Gap vs s) : Finds unicode s vs := by
  induction text with
  | last => exact finds_skip _ (u := ['}']) (by decide) finds_nil
  | more left value right _ ih =>
    have behind := finds_quoted _ value (finds_skip _ right.no_quote ih)
    exact finds_skip _ (u := [',']) (by decide) (finds_skip _ left.no_quote behind)

theorem finds_member {negated : Bool} (key : IsKey k) (values : ListText Gap vs t)
    (text : MemberText Gap t negated s) : Finds unicode (k ++ s) vs := by
  cases values with
  | empty gap =>
    have found := finds_skip unicode (member_unquoted key gap text) finds_nil
    rwa [List.append_nil] at found
  | some gap value right others =>
    obtain ⟨x, whole, front⟩ := member_front key text gap
    rw [whole, ← List.append_assoc]
    have behind := finds_quoted unicode value
      (finds_skip _ right.no_quote (finds_more others))
    exact finds_skip _ front.unquoted behind

end Values
end Nca.Parsers
