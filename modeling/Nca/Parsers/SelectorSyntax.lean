import Nca.Parsers.SelectorSplitting

/-!
The syntax of Calico selectors, and how a selector is written: with any brackets that keep its
meaning and any gaps around the operators. Negation binds stronger than conjunction, which binds
stronger than disjunction.
-/

namespace Nca.Parsers
open CoreDS Lib Lib.Texts

inductive CompareOp where
  | eq
  | ne
  | contains
  | startsWith
  | endsWith
  deriving DecidableEq, Repr

/-- The expressions of selectors without Boolean operators. -/
inductive Atom where
  | all
  | has (key : Str)
  | compare (key : Str) (op : CompareOp) (value : Str)
  | member (key : Str) (negated : Bool) (values : List Str)
  deriving DecidableEq, Repr

inductive Selector where
  | atom (a : Atom)
  | not (e : Selector)
  | and (e f : Selector)
  | or (e f : Selector)
  deriving DecidableEq, Repr

section Written

def IsWordChar (c : Char) : Prop :=
  c.isAlphanum = true ∨ c = '_' ∨ c = '.' ∨ c = '-' ∨ c = '/'

def IsKey (k : Str) : Prop := k ≠ [] ∧ ∀ c ∈ k, IsWordChar c

def IsValue (v : Str) : Prop := ∀ c ∈ v, IsWordChar c

def Spaces (w : Str) : Prop := ∀ c ∈ w, isSpace c = true

def quoted (v : Str) : Str := '\'' :: (v ++ ['\''])

/-- What stands between a key and the rest of a comparison; `G` are the gaps. -/
inductive CompareText (G : Str → Prop) (rest : Str) : CompareOp → Str → Prop
  | eq {u v : Str} (left : G u) (right : G v) :
      CompareText G rest .eq (u ++ ("==".toList ++ (v ++ rest)))
  | ne {u v : Str} (left : G u) (right : G v) :
      CompareText G rest .ne (u ++ ("!=".toList ++ (v ++ rest)))
  | contains {u v : Str} (left : G u) (some : u ≠ []) (right : G v) :
      CompareText G rest .contains (u ++ ("contains".toList ++ (v ++ rest)))
  | startsWith {u m v : Str} (left : G u) (some : u ≠ []) (middle : G m) (some' : m ≠ [])
      (right : G v) :
      CompareText G rest .startsWith (u ++ ("starts".toList ++ (m ++ ("with".toList ++ (v ++ rest)))))
  | endsWith {u m v : Str} (left : G u) (some : u ≠ []) (middle : G m) (some' : m ≠ [])
      (right : G v) :
      CompareText G rest .endsWith (u ++ ("ends".toList ++ (m ++ ("with".toList ++ (v ++ rest)))))

/-- What stands between a key and a list of values. -/
inductive MemberText (G : Str → Prop) (rest : Str) : Bool → Str → Prop
  | isIn {u v : Str} (left : G u) (some : u ≠ []) (right : G v) :
      MemberText G rest false (u ++ ("in".toList ++ (v ++ rest)))
  | notIn {u m v : Str} (left : G u) (some : u ≠ []) (middle : G m) (some' : m ≠ []) (right : G v) :
      MemberText G rest true (u ++ ("not".toList ++ (m ++ ("in".toList ++ (v ++ rest)))))

/-- The values behind the first one of a list, with the bracket that closes the list. -/
inductive MoreText (G : Str → Prop) : List Str → Str → Prop
  | last : MoreText G [] ['}']
  | more {v s u w : Str} {vs : List Str} (left : G u) (value : IsValue v) (right : G w)
      (others : MoreText G vs s) : MoreText G (v :: vs) (',' :: (u ++ (quoted v ++ (w ++ s))))

inductive ListText (G : Str → Prop) : List Str → Str → Prop
  | empty {u : Str} (inner : G u) : ListText G [] ('{' :: (u ++ ['}']))
  | some {v s u w : Str} {vs : List Str} (left : G u) (value : IsValue v) (right : G w)
      (others : MoreText G vs s) : ListText G (v :: vs) ('{' :: (u ++ (quoted v ++ (w ++ s))))

inductive AtomText (G : Str → Prop) : Atom → Str → Prop
  | all : AtomText G .all "all()".toList
  | has {k : Str} (key : IsKey k) : AtomText G (.has k) ("has(".toList ++ (k ++ [')']))
  | compare {k v s : Str} {op : CompareOp} (key : IsKey k) (value : IsValue v)
      (text : CompareText G (quoted v) op s) : AtomText G (.compare k op v) (k ++ s)
  | member {k s t : Str} {negated : Bool} {vs : List Str} (key : IsKey k) (values : ListText G vs s)
      (text : MemberText G s negated t) : AtomText G (.member k negated vs) (k ++ t)

/-- What may stand in a place of a selector without brackets around it. -/
inductive Level where
  | alternatives
  | conjunction
  | operand
  deriving DecidableEq, Repr

inductive Printed : Level → Selector → Str → Prop
  | atom {a : Atom} {s : Str} (text : AtomText Spaces a s) : Printed .operand (.atom a) s
  | not {e : Selector} {w s : Str} (gap : Spaces w) (inner : Printed .operand e s) :
      Printed .operand (.not e) ('!' :: (w ++ s))
  | brackets {e : Selector} {u s v : Str} (left : Spaces u) (inner : Printed .alternatives e s)
      (right : Spaces v) : Printed .operand e ('(' :: (u ++ (s ++ v) ++ [')']))
  | operand {e : Selector} {s : Str} (inner : Printed .operand e s) : Printed .conjunction e s
  | and {e f : Selector} {s u v t : Str} (first : Printed .conjunction e s) (left : Spaces u)
      (right : Spaces v) (second : Printed .conjunction f t) :
      Printed .conjunction (.and e f) (s ++ (u ++ ('&' :: '&' :: (v ++ t))))
  | conjunction {e : Selector} {s : Str} (inner : Printed .conjunction e s) :
      Printed .alternatives e s
  | or {e f : Selector} {s u v t : Str} (first : Printed .alternatives e s) (left : Spaces u)
      (right : Spaces v) (second : Printed .alternatives f t) :
      Printed .alternatives (.or e f) (s ++ (u ++ ('|' :: '|' :: (v ++ t))))

end Written

variable {s t u v w : Str} {a : Atom} {e : Selector} {c : Char} {level : Level}

section Plain

/-- A text without brackets and without characters of Boolean operators between selectors. -/
def PlainText (s : Str) : Prop := ∀ c ∈ s, c ≠ '(' ∧ c ≠ ')' ∧ c ≠ '|' ∧ c ≠ '&'

theorem plain_append (first : PlainText s) (second : PlainText t) : PlainText (s ++ t) :=
  List.forall_mem_append.mpr ⟨first, second⟩

theorem plain_spaces (spaces : Spaces w) : PlainText w := by
  intro c inside
  have space := spaces c inside
  refine ⟨?_, ?_, ?_, ?_⟩ <;>
  · rintro rfl
    exact absurd space (by decide)

theorem plain_value (value : IsValue v) : PlainText v := by
  intro c inside
  have word := value c inside
  refine ⟨?_, ?_, ?_, ?_⟩ <;>
  · rintro rfl
    unfold IsWordChar at word
    revert word
    decide

theorem plain_of (plain : (s.all fun c => c ≠ '(' ∧ c ≠ ')' ∧ c ≠ '|' ∧ c ≠ '&') = true) :
    PlainText s := by
  simpa [PlainText] using plain

theorem plain_cons (first : (c ≠ '(' ∧ c ≠ ')' ∧ c ≠ '|' ∧ c ≠ '&')) (others : PlainText s) :
    PlainText (c :: s) := List.forall_mem_cons.mpr ⟨first, others⟩

theorem plain_quoted (value : IsValue v) : PlainText (quoted v) :=
  plain_cons (by decide) (plain_append (plain_value value) (plain_of rfl))

theorem plain_compare {rest : Str} {op : CompareOp} (text : CompareText Spaces rest op s)
    (plain : PlainText rest) : PlainText s := by
  cases text with
  | eq left right | ne left right | contains left _ right =>
    have behind := plain_append (plain_spaces right) plain
    exact plain_append (plain_spaces left) (plain_append (plain_of rfl) behind)
  | startsWith left _ middle _ right | endsWith left _ middle _ right =>
    have with_ : PlainText "with".toList := plain_of rfl
    have behind := plain_append with_ (plain_append (plain_spaces right) plain)
    have rest := plain_append (plain_spaces middle) behind
    exact plain_append (plain_spaces left) (plain_append (plain_of rfl) rest)

theorem plain_member {rest : Str} {negated : Bool} (text : MemberText Spaces rest negated s)
    (plain : PlainText rest) : PlainText s := by
  cases text with
  | isIn left _ right =>
    have behind := plain_append (plain_spaces right) plain
    exact plain_append (plain_spaces left) (plain_append (plain_of rfl) behind)
  | notIn left _ middle _ right =>
    have in_ : PlainText "in".toList := plain_of rfl
    have behind := plain_append in_ (plain_append (plain_spaces right) plain)
    have rest := plain_append (plain_spaces middle) behind
    exact plain_append (plain_spaces left) (plain_append (plain_of rfl) rest)

theorem plain_more {vs : List Str} (text : MoreText Spaces vs s) : PlainText s := by
  induction text with
  | last => exact plain_of rfl
  | more left value right _ ih =>
    have behind := plain_append (plain_quoted value) (plain_append (plain_spaces right) ih)
    exact plain_cons (by decide) (plain_append (plain_spaces left) behind)

theorem plain_list {vs : List Str} (text : ListText Spaces vs s) : PlainText s := by
  cases text with
  | empty inner => exact plain_cons (by decide) (plain_append (plain_spaces inner) (plain_of rfl))
  | some left value right others =>
    have rest := plain_append (plain_spaces right) (plain_more others)
    have behind := plain_append (plain_quoted value) rest
    exact plain_cons (by decide) (plain_append (plain_spaces left) behind)

end Plain

section Quiet

/-- Before no bracket stand the letters that stand there in `global()`. -/
def Quiet (s : Str) : Prop := ∀ u v, s = u ++ '(' :: v → ¬ ['a', 'l'] <:+ u

theorem quiet_closing (none : '(' ∉ s) : Quiet s := by
  intro u v whole _
  exact none (by simp [whole])

theorem quiet_plain (plain : PlainText s) : Quiet s :=
  quiet_closing fun inside => (plain '(' inside).1 rfl

theorem quiet_append (first : Quiet s) (second : Quiet t)
    (last : ∀ c ∈ s.getLast?, c ≠ 'a' ∧ c ≠ 'l') : Quiet (s ++ t) := by
  intro u v whole ⟨y, front⟩
  rcases List.append_eq_append_iff.mp whole with ⟨x, rfl, behind⟩ | ⟨x, rfl, behind⟩
  · rcases List.append_eq_append_iff.mp front with ⟨z, rfl, same⟩ | ⟨z, rfl, same⟩
    · rcases List.cons_eq_append_iff.mp same with ⟨rfl, rfl⟩ | ⟨z, rfl, tail⟩
      · exact second _ _ behind ⟨[], rfl⟩
      · rcases List.cons_eq_append_iff.mp tail with ⟨rfl, rfl⟩ | ⟨z, rfl, tail⟩
        · exact (last 'a' (by simp)).1 rfl
        · obtain ⟨rfl, rfl⟩ := List.append_eq_nil_iff.mp (List.cons.inj tail).2.symm
          exact (last 'l' (by simp)).2 rfl
    · exact second _ _ behind ⟨z, same.symm⟩
  · rcases List.cons_eq_append_iff.mp behind with ⟨rfl, _⟩ | ⟨x, rfl, _⟩
    · rw [List.append_nil] at last
      have end_ := last 'l' (by simp [← front])
      exact end_.2 rfl
    · exact first u x rfl ⟨y, front⟩

/-- A text with one opening bracket. -/
theorem quiet_once (before : '(' ∉ s) (behind : '(' ∉ t) (quiet : ¬ ['a', 'l'] <:+ s) :
    Quiet (s ++ '(' :: t) := by
  intro u v whole
  rcases List.append_eq_append_iff.mp whole with ⟨x, rfl, tail⟩ | ⟨x, rfl, tail⟩
  · rcases List.cons_eq_append_iff.mp tail with ⟨rfl, _⟩ | ⟨z, rfl, rest⟩
    · rwa [List.append_nil]
    · exact (behind (by simp [rest])).elim
  · rcases List.cons_eq_append_iff.mp tail with ⟨rfl, _⟩ | ⟨z, rfl, rest⟩
    · rwa [List.append_nil] at quiet
    · exact (before (by simp)).elim

theorem quiet_global (quiet : Quiet s) : ¬ "global()".toList <:+: s := by
  intro ⟨u, v, whole⟩
  apply quiet (u ++ "global".toList) (')' :: v) _ ⟨u ++ "glob".toList, _⟩
  · rw [← whole, List.append_assoc, List.append_assoc]
    rfl
  · rw [List.append_assoc]
    rfl

end Quiet

section Shape

/-- A text whose brackets are closed, with solid characters at both ends. -/
structure Closed (s : Str) : Prop where
  balanced : bracketCount s = 0
  nested : Nested s
  quiet : Quiet s
  first : ∃ c ∈ s.head?, isSpace c = false
  last : ∃ c ∈ s.getLast?, isSpace c = false ∧ c ≠ 'a' ∧ c ≠ 'l'

theorem Closed.ne_nil (closed : Closed s) : s ≠ [] := by
  rintro rfl
  obtain ⟨c, found, _⟩ := closed.first
  cases found

theorem PlainText.balanced (plain : PlainText s) : bracketCount s = 0 :=
  bracketCount_plain (fun inside => (plain '(' inside).1 rfl) fun inside => (plain ')' inside).2.1 rfl

theorem PlainText.nested (plain : PlainText s) : Nested s :=
  nested_plain (fun inside => (plain '(' inside).1 rfl) fun inside => (plain ')' inside).2.1 rfl

theorem closed_plain (plain : PlainText s) (first : ∃ c ∈ s.head?, isSpace c = false)
    (last : ∃ c ∈ s.getLast?, isSpace c = false ∧ c ≠ 'a' ∧ c ≠ 'l') : Closed s :=
  ⟨plain.balanced, plain.nested, quiet_plain plain, first, last⟩

theorem closed_after (plain : PlainText u) (quiet : ∀ c ∈ u.getLast?, c ≠ 'a' ∧ c ≠ 'l')
    (first : ∃ c ∈ u.head?, isSpace c = false) (closed : Closed s) : Closed (u ++ s) := by
  refine ⟨?_, nested_append plain.nested plain.balanced closed.nested,
    quiet_append (quiet_plain plain) closed.quiet quiet, ?_, ?_⟩
  · rw [bracketCount_append, plain.balanced, closed.balanced]
    rfl
  · obtain ⟨c, found, solid⟩ := first
    exact ⟨c, by simp [Option.mem_def.mp found], solid⟩
  · obtain ⟨c, found, solid⟩ := closed.last
    exact ⟨c, by simp [List.getLast?_append, Option.mem_def.mp found], solid⟩

/-- Closed texts around an operator. -/
theorem closed_operator (closed : Closed s) (behind : Closed t) (opening : '(' ∉ u)
    (closing : ')' ∉ u) (quiet : ∀ c ∈ u.getLast?, c ≠ 'a' ∧ c ≠ 'l') : Closed (s ++ (u ++ t)) := by
  have none := bracketCount_plain opening closing
  refine ⟨?_, ?_, ?_, ?_, ?_⟩
  · rw [bracketCount_append, bracketCount_append, closed.balanced, none, behind.balanced]
    rfl
  · apply nested_append closed.nested closed.balanced
    exact nested_append (nested_plain opening closing) none behind.nested
  · apply quiet_append closed.quiet (quiet_append (quiet_closing opening) behind.quiet quiet)
    intro c found
    obtain ⟨d, same, _, notA, notL⟩ := closed.last
    cases Option.mem_unique found same
    exact ⟨notA, notL⟩
  · obtain ⟨c, found, solid⟩ := closed.first
    exact ⟨c, by simp [Option.mem_def.mp found], solid⟩
  · obtain ⟨c, found, solid⟩ := behind.last
    exact ⟨c, by simp [List.getLast?_append, Option.mem_def.mp found], solid⟩

theorem closed_brackets (closed : Closed s) (left : PlainText u) (right : PlainText v)
    (quietLeft : ∀ c ∈ u.getLast?, c ≠ 'a' ∧ c ≠ 'l') :
    Closed ('(' :: (u ++ (s ++ v) ++ [')'])) := by
  have inner : Nested (u ++ (s ++ v)) := by
    apply nested_append left.nested left.balanced
    exact nested_append closed.nested closed.balanced right.nested
  have balanced : bracketCount (u ++ (s ++ v)) = 0 := by
    rw [bracketCount_append, bracketCount_append, closed.balanced, left.balanced, right.balanced]
    rfl
  have solidEnd : ∀ c ∈ s.getLast?, c ≠ 'a' ∧ c ≠ 'l' := by
    intro c found
    obtain ⟨d, same, _, notA, notL⟩ := closed.last
    cases Option.mem_unique found same
    exact ⟨notA, notL⟩
  refine ⟨?_, nested_brackets inner balanced, ?_, ⟨'(', rfl, by decide⟩, ⟨')', ?_, by decide⟩⟩
  · rw [bracketCount_brackets, balanced]
  · have opening : Quiet ['('] :=
      quiet_once List.not_mem_nil List.not_mem_nil (by decide)
    have closing : Quiet (v ++ [')']) := by
      apply quiet_closing
      rw [List.mem_append, List.mem_singleton]
      rintro (inside | same)
      · exact (right '(' inside).1 rfl
      · exact absurd same (by decide)
    have behind := quiet_append closed.quiet closing solidEnd
    have front := quiet_append (quiet_plain left) behind quietLeft
    have whole := quiet_append opening front (by simp)
    simpa using whole
  · rw [← List.cons_append]
    exact List.getLast?_concat

theorem isSpace_word (word : IsWordChar c) : isSpace c = false := by
  rcases word with letter | rfl | rfl | rfl | rfl
  · rw [← Bool.not_eq_true]
    intro space
    simp only [isSpace, Bool.or_eq_true, Bool.and_eq_true, decide_eq_true_eq, beq_iff_eq] at space
    have from_zero : 48 ≤ c.toNat := by
      rcases Bool.or_eq_true_iff.mp letter with alpha | digit
      · rcases Bool.or_eq_true_iff.mp alpha with upper | lower
        · have least : 65 ≤ c.toNat := UInt32.le_iff_toNat_le.mp
            (of_decide_eq_true upper).1
          omega
        · have least : 97 ≤ c.toNat := UInt32.le_iff_toNat_le.mp
            (of_decide_eq_true (Bool.and_eq_true_iff.mp lower).1)
          omega
      · exact UInt32.le_iff_toNat_le.mp (of_decide_eq_true (Bool.and_eq_true_iff.mp digit).1)
    have to_z : c.toNat ≤ 122 := by
      rcases Bool.or_eq_true_iff.mp letter with alpha | digit
      · rcases Bool.or_eq_true_iff.mp alpha with upper | lower
        · have most : c.toNat ≤ 90 := UInt32.le_iff_toNat_le.mp
            (of_decide_eq_true upper).2
          omega
        · exact UInt32.le_iff_toNat_le.mp (of_decide_eq_true (Bool.and_eq_true_iff.mp lower).2)
      · have most : c.toNat ≤ 57 := UInt32.le_iff_toNat_le.mp
          (of_decide_eq_true (Bool.and_eq_true_iff.mp digit).2)
        omega
    omega
  all_goals decide

theorem key_head {k : Str} (key : IsKey k) : ∃ c ∈ (k ++ s).head?, IsWordChar c := by
  obtain ⟨c, rest, rfl⟩ := List.exists_cons_of_ne_nil key.1
  exact ⟨c, rfl, key.2 c List.mem_cons_self⟩

theorem last_append (found : t.getLast? = some c) : (s ++ t).getLast? = some c := by
  rw [List.getLast?_append, found]
  rfl

theorem quoted_last : (quoted v).getLast? = some '\'' := by
  rw [quoted, ← List.cons_append, List.getLast?_concat]

theorem compare_last {rest : Str} {op : CompareOp} (text : CompareText Spaces rest op s)
    (last : rest.getLast? = some c) : s.getLast? = some c := by
  cases text with
  | eq left right | ne left right | contains left _ right =>
    exact last_append (last_append (last_append last))
  | startsWith left _ middle _ right | endsWith left _ middle _ right =>
    exact last_append (last_append (last_append (last_append (last_append last))))

theorem member_last {rest : Str} {negated : Bool} (text : MemberText Spaces rest negated s)
    (last : rest.getLast? = some c) : s.getLast? = some c := by
  cases text with
  | isIn left _ right => exact last_append (last_append (last_append last))
  | notIn left _ middle _ right =>
    exact last_append (last_append (last_append (last_append (last_append last))))

theorem more_last {vs : List Str} (text : MoreText Spaces vs s) : s.getLast? = some '}' := by
  induction text with
  | last => rfl
  | more left value right _ ih =>
    rw [← List.singleton_append]
    exact last_append (last_append (last_append (last_append ih)))

theorem list_last {vs : List Str} (text : ListText Spaces vs s) : s.getLast? = some '}' := by
  cases text with
  | empty inner =>
    rw [← List.singleton_append]
    exact last_append (last_append rfl)
  | some left value right others =>
    rw [← List.singleton_append]
    exact last_append (last_append (last_append (last_append (more_last others))))

/-- Atomic expressions are no places to split at. -/
structure Solid (s : Str) : Prop extends Closed s where
  bars : '|' ∉ s
  ands : '&' ∉ s
  head : ∃ c ∈ s.head?, IsWordChar c

theorem solid_plain {k : Str} (key : IsKey k) (plain : PlainText s) (last : s.getLast? = some c)
    (solid : isSpace c = false ∧ c ≠ 'a' ∧ c ≠ 'l') : Solid (k ++ s) := by
  have whole : PlainText (k ++ s) := plain_append (plain_value key.2) plain
  obtain ⟨d, first, word⟩ : ∃ c ∈ (k ++ s).head?, IsWordChar c := key_head key
  have closed := closed_plain whole ⟨d, first, isSpace_word word⟩ ⟨c, last_append last, solid⟩
  exact ⟨closed, fun inside => (whole '|' inside).2.2.1 rfl,
    fun inside => (whole '&' inside).2.2.2 rfl, d, first, word⟩

theorem solid_call {name k : Str} (named : IsKey name) (quiet : ¬ ['a', 'l'] <:+ name)
    (value : IsValue k) : Solid (name ++ '(' :: (k ++ [')'])) := by
  have front : PlainText name := plain_value named.2
  have inner : PlainText k := plain_value value
  have brackets : bracketCount ('(' :: (k ++ [')'])) = 0 := by
    rw [bracketCount_brackets, inner.balanced]
  have outside : ∀ c, c ≠ '(' → c ≠ ')' → c ∉ name → c ∉ k → c ∉ name ++ '(' :: (k ++ [')']) := by
    intro c opening closing noName noKey
    simp [opening, closing, noName, noKey]
  obtain ⟨d, first, word⟩ : ∃ c ∈ (name ++ '(' :: (k ++ [')'])).head?, IsWordChar c := key_head named
  refine ⟨⟨?_, ?_, ?_, ⟨d, first, isSpace_word word⟩, ⟨')', ?_, by decide⟩⟩, ?_, ?_, d, first, word⟩
  · rw [bracketCount_append, front.balanced, brackets]
    rfl
  · exact nested_append front.nested front.balanced (nested_brackets inner.nested inner.balanced)
  · apply quiet_once (fun inside => (front '(' inside).1 rfl) _ quiet
    rw [List.mem_append, List.mem_singleton]
    rintro (inside | same)
    · exact (inner '(' inside).1 rfl
    · exact absurd same (by decide)
  · rw [← List.cons_append, ← List.append_assoc]
    exact List.getLast?_concat
  · exact outside '|' (by decide) (by decide) (fun inside => (front '|' inside).2.2.1 rfl)
      fun inside => (inner '|' inside).2.2.1 rfl
  · exact outside '&' (by decide) (by decide) (fun inside => (front '&' inside).2.2.2 rfl)
      fun inside => (inner '&' inside).2.2.2 rfl

theorem solid_atom (text : AtomText Spaces a s) : Solid s := by
  cases text with
  | all =>
    have named : IsKey "all".toList := ⟨by decide, by simp [IsWordChar]⟩
    exact solid_call named (by decide) (List.forall_mem_nil _)
  | has key =>
    have named : IsKey "has".toList := ⟨by decide, by simp [IsWordChar]⟩
    exact solid_call named (by decide) key.2
  | compare key value text =>
    have plain := plain_compare text (plain_quoted value)
    exact solid_plain key plain (compare_last text quoted_last) (by decide)
  | member key values text =>
    have plain := plain_member text (plain_list values)
    exact solid_plain key plain (member_last text (list_last values)) (by decide)

/-- The brackets that must be open where no operator of the level is a place to split at. -/
def Level.barDepth : Level → Int
  | .alternatives => 1
  | _ => 0

def Level.andDepth : Level → Int
  | .operand => 0
  | _ => 1

structure Shape (level : Level) (s : Str) : Prop extends Closed s where
  bars : Passes '|' '|' level.barDepth s
  ands : Passes '&' '&' level.andDepth s

theorem passes_spaces {a : Char} {n : Int} (spaces : Spaces w) (solid : isSpace a = false) :
    Passes a a n w := by
  apply passes_plain
  intro inside
  rw [spaces a inside] at solid
  cases solid

theorem spaces_quiet (spaces : Spaces w) : ∀ c ∈ w.getLast?, c ≠ 'a' ∧ c ≠ 'l' := by
  intro c found
  have space := spaces c (List.mem_of_getLast? found)
  constructor <;>
  · rintro rfl
    exact absurd space (by decide)

theorem closed_joined {b : Char} (closed : Closed s) (behind : Closed t) (left : Spaces u)
    (right : Spaces v) (operator : b = '&' ∨ b = '|') :
    Closed (s ++ (u ++ (b :: b :: (v ++ t)))) := by
  have outside : ∀ c, isSpace c = false → c ≠ b → c ∉ u ++ (b :: b :: v) := by
    intro c solid other inside
    simp only [List.mem_append, List.mem_cons, other, false_or] at inside
    rcases inside with space | space
    · simp [left c space] at solid
    · simp [right c space] at solid
  have others : '(' ≠ b ∧ ')' ≠ b ∧ 'a' ≠ b ∧ 'l' ≠ b := by
    rcases operator with rfl | rfl <;> decide
  have opening := outside '(' (by decide) others.1
  have closing := outside ')' (by decide) others.2.1
  have quiet : ∀ c ∈ (u ++ (b :: b :: v)).getLast?, c ≠ 'a' ∧ c ≠ 'l' := by
    intro c found
    have inside := List.mem_of_getLast? found
    constructor
    · rintro rfl
      exact outside 'a' (by decide) others.2.2.1 inside
    · rintro rfl
      exact outside 'l' (by decide) others.2.2.2 inside
  have joined := closed_operator closed behind opening closing quiet
  rwa [List.append_assoc] at joined

theorem passes_joined {a b : Char} {n : Int} (first : Passes a a n s) (closed : Closed s)
    (operator : Passes a a n [b, b]) (plain : bracketCount [b, b] = 0) (second : Passes a a n t)
    (left : Spaces u) (right : Spaces v) (solid : isSpace a = false) :
    Passes a a n (s ++ (u ++ (b :: b :: (v ++ t)))) := by
  have leftDepth := (plain_spaces left).balanced
  have rightDepth := (plain_spaces right).balanced
  have depth := closed.balanced
  have behind : Passes a a n (v ++ t) := passes_append (passes_spaces right solid) second (by omega)
  have rest : Passes a a n ([b, b] ++ (v ++ t)) := passes_append operator behind (by omega)
  apply passes_append first _ (by omega : n ≤ n + bracketCount s)
  exact passes_append (passes_spaces left solid) rest (by omega)

theorem passes_brackets {a : Char} (inner : Passes a a 1 s) (closed : Closed s) (left : Spaces u)
    (right : Spaces v) (solid : isSpace a = false) (other : a ≠ '(' ∧ a ≠ ')') :
    Passes a a 0 ('(' :: (u ++ (s ++ v) ++ [')'])) := by
  have leftDepth := (plain_spaces left).balanced
  have rightDepth := (plain_spaces right).balanced
  have depth := closed.balanced
  have opening : Passes a a 0 ['('] := passes_plain (by simpa using other.1)
  have closing : Passes a a 1 [')'] := passes_plain (by simpa using other.2)
  have behind : Passes a a 1 (s ++ v) :=
    passes_append inner (passes_spaces right solid) (by omega : (1 : Int) ≤ 1 + bracketCount s)
  have text : Passes a a 1 (u ++ (s ++ v)) :=
    passes_append (passes_spaces left solid) behind (by omega : (1 : Int) ≤ 1 + bracketCount u)
  have textDepth : bracketCount (u ++ (s ++ v)) = 0 := by
    rw [bracketCount_append, bracketCount_append]
    omega
  exact passes_append opening (passes_append text closing (by omega)) (by decide)

theorem printed_shape (printed : Printed level e s) : Shape level s := by
  induction printed with
  | atom text =>
    have solid := solid_atom text
    exact ⟨solid.toClosed, passes_plain solid.bars, passes_plain solid.ands⟩
  | @not _ w s gap _ ih =>
    have front : PlainText ('!' :: w) := plain_cons (by decide) (plain_spaces gap)
    have depth := front.balanced
    have quiet : ∀ c ∈ ('!' :: w).getLast?, c ≠ 'a' ∧ c ≠ 'l' := by
      intro c found
      rcases List.mem_cons.mp (List.mem_of_getLast? found) with rfl | inside
      · decide
      · have space := gap c inside
        constructor <;>
        · rintro rfl
          exact absurd space (by decide)
    have passes : ∀ {a : Char}, a ∉ '!' :: w → Passes a a 0 s → Passes a a 0 ('!' :: (w ++ s)) := by
      intro a outside inner
      have whole : Passes a a 0 (('!' :: w) ++ s) :=
        passes_append (passes_plain outside) inner (by omega)
      exact whole
    refine ⟨closed_after front quiet ⟨'!', rfl, by decide⟩ ih.toClosed, ?_, ?_⟩
    · exact passes (fun inside => (front '|' inside).2.2.1 rfl) ih.bars
    · exact passes (fun inside => (front '&' inside).2.2.2 rfl) ih.ands
  | brackets left _ right ih =>
    refine ⟨closed_brackets ih.toClosed (plain_spaces left) (plain_spaces right) (spaces_quiet left),
      ?_, ?_⟩
    · exact passes_brackets ih.bars ih.toClosed left right (by decide) (by decide)
    · exact passes_brackets ih.ands ih.toClosed left right (by decide) (by decide)
  | operand _ ih => exact ⟨ih.toClosed, ih.bars, passes_mono (by decide) ih.ands⟩
  | and _ left right _ ih ih' =>
    refine ⟨closed_joined ih.toClosed ih'.toClosed left right (Or.inl rfl), ?_, ?_⟩
    · exact passes_joined ih.bars ih.toClosed (passes_plain (by decide)) rfl ih'.bars left right rfl
    · exact passes_joined ih.ands ih.toClosed (passes_operator (by decide)) rfl ih'.ands left right rfl
  | conjunction _ ih => exact ⟨ih.toClosed, passes_mono (by decide) ih.bars, ih.ands⟩
  | or _ left right _ ih ih' =>
    refine ⟨closed_joined ih.toClosed ih'.toClosed left right (Or.inr rfl), ?_, ?_⟩
    · exact passes_joined ih.bars ih.toClosed (passes_operator (by decide)) rfl ih'.bars left right rfl
    · exact passes_joined ih.ands ih.toClosed (passes_plain (by decide)) rfl ih'.ands left right rfl

end Shape
end Nca.Parsers
