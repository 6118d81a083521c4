import Mathlib.Data.Bool.AllAny
import Nca.FWRules.FWRule
import Nca.FWRules.LabelTables

/-!
The language of label expressions: a conjunction of disjunctions of what can be said about one
label. A text has the meaning of the formula that it is read as, and the text of a formula is read
as that formula.
-/

namespace Nca.FWRules
open CoreDS Lib LabelExpr

/-- What can be said about the value of a label. -/
inductive Literal where
  | has (k : Str)
  | lacks (k : Str)
  | isIn (k : Str) (values : List Str)
  | notIn (k : Str) (values : List Str)
  | hasNotIn (k : Str) (values : List Str)
  deriving DecidableEq, Repr

abbrev Clause := List Literal

abbrev Formula := List Clause

namespace Literal

/-- As for a label selector, `notIn` holds where the label is missing. -/
def Holds (label : Str → Option Str) : Literal → Prop
  | has k => label k ≠ none
  | lacks k => label k = none
  | isIn k values => ∃ v ∈ values, label k = some v
  | notIn k values => ∀ v ∈ values, label k ≠ some v
  | hasNotIn k values => label k ≠ none ∧ ∀ v ∈ values, label k ≠ some v

/-- A comparison with one value or several. -/
def comparison (equality containment : String) : List Str → Str
  | [v] => equality.toList ++ v
  | values => containment.toList ++ joinStr "," values ++ [')']

def text : Literal → Str
  | has k => hasStr k
  | lacks k => '!' :: hasStr k
  | isIn k values => k ++ comparison "=" " in (" values
  | notIn k values => k ++ comparison "!=" " not in (" values
  | hasNotIn k values =>
    "(".toList ++ hasStr k ++ " and ".toList ++ (k ++ comparison "!=" " not in (" values) ++ ")".toList

/-- The names are label texts, and some value is compared with. -/
def WellFormed : Literal → Prop
  | has k | lacks k => k ≠ [] ∧ LabelText k
  | isIn k values | notIn k values | hasNotIn k values =>
    (k ≠ [] ∧ LabelText k) ∧ values ≠ [] ∧ ∀ v ∈ values, LabelText v

end Literal

namespace Formula

def Holds (label : Str → Option Str) (formula : Formula) : Prop :=
  ∀ clause ∈ formula, ∃ literal ∈ clause, literal.Holds label

def orText (clause : Clause) : Str := joinStr " or " (clause.map Literal.text)

/-- A disjunction among others has braces. -/
def clauseText (clause : Clause) : Str :=
  if 1 < clause.length then "\x7b".toList ++ orText clause ++ "\x7d".toList else orText clause

def text : Formula → Str
  | [clause] => orText clause
  | clauses => joinStr " and " (clauses.map clauseText)

def WellFormed (formula : Formula) : Prop :=
  formula ≠ [] ∧ ∀ clause ∈ formula, clause ≠ [] ∧ ∀ literal ∈ clause, literal.WellFormed

end Formula

section Reader

/-- What comes after a given text. -/
def after (lit : String) (s : Str) : Option Str :=
  if lit.toList <+: s then some (s.drop lit.toList.length) else none

def readName (s : Str) : Str × Str := (s.takeWhile labelChar, s.dropWhile labelChar)

def readHas (s : Str) : Option (Str × Str) := do
  let s ← after "has(" s
  let (k, s) := readName s
  let s ← after ")" s
  pure (k, s)

/-- The values up to the closing parenthesis. -/
def readValues (s : Str) : Option (List Str × Str) :=
  match s.dropWhile (· ≠ ')') with
  | [] => none
  | _ :: rest => some ((s.takeWhile (· ≠ ')')).splitOn ',', rest)

/-- What comes after a key. -/
def readComparison (k : Str) (s : Str) : Option (Literal × Str) :=
  match after "=" s with
  | some s => some (.isIn k [(readName s).1], (readName s).2)
  | none =>
    match after "!=" s with
    | some s => some (.notIn k [(readName s).1], (readName s).2)
    | none =>
      match after " in (" s with
      | some s => (readValues s).map fun (values, s) => (.isIn k values, s)
      | none => do
        let s ← after " not in (" s
        let (values, s) ← readValues s
        pure (.notIn k values, s)

def readLiteral (s : Str) : Option (Literal × Str) :=
  match s with
  | '!' :: s => (readHas s).map fun (k, s) => (.lacks k, s)
  | '(' :: s => do
    let (key, s) ← readHas s
    let s ← after " and " s
    let (literal, s) ← readComparison (readName s).1 (readName s).2
    let s ← after ")" s
    match literal with
    | .notIn k values => if k = key then pure (.hasNotIn k values, s) else none
    | _ => none
  | s =>
    match after "(" (readName s).2 with
    | some _ => (readHas s).map fun (k, s) => (.has k, s)
    | none => readComparison (readName s).1 (readName s).2

/-- A sequence with a separator. -/
def readMany {α : Type} (read : Str → Option (α × Str)) (sep : String) :
    Nat → Str → Option (List α × Str)
  | 0, _ => none
  | fuel + 1, s => do
    let (item, s) ← read s
    match after sep s with
    | none => pure ([item], s)
    | some s =>
      let (items, s) ← readMany read sep fuel s
      pure (item :: items, s)

def readClause (s : Str) : Option (Clause × Str) :=
  match after "\x7b" s with
  | some s => do
    let (clause, s) ← readMany readLiteral " or " s.length s
    let s ← after "\x7d" s
    pure (clause, s)
  | none => readMany readLiteral " or " s.length s

def readFormula (s : Str) : Option Formula := do
  let (formula, s) ← readMany readClause " and " (s.length + 1) s
  if s = [] then pure formula else none

/-- What a printed expression says of the labels of a pod. -/
def Says (text : Str) (label : Str → Option Str) : Prop :=
  ∃ formula, readFormula text = some formula ∧ formula.Holds label

end Reader

section RoundTrip

variable {k s rest : Str} {values : List Str} {literal : Literal} {clause : Clause} {formula : Formula}

theorem after_append (lit : String) (s : Str) : after lit (lit.toList ++ s) = some s := by
  simp [after]

/-- No name goes on in a text. -/
def Stops (rest : Str) : Prop := ∀ c ∈ rest.head?, labelChar c = false

theorem readName_append (name : LabelText k) (stops : Stops rest) : readName (k ++ rest) = (k, rest) := by
  unfold readName
  rw [List.takeWhile_append_of_pos name, List.dropWhile_append_of_pos name]
  cases rest with
  | nil => simp
  | cons c rest =>
    have stop : labelChar c = false := stops c rfl
    simp [stop]

theorem readHas_append (name : LabelText k) : readHas (hasStr k ++ rest) = some (k, rest) := by
  unfold readHas hasStr
  have stop : Stops (")".toList ++ rest) := by
    intro c first
    obtain rfl := Option.some.inj first
    decide
  simp only [List.append_assoc, after_append, Option.bind_eq_bind, Option.bind_some,
    readName_append name stop]
  rfl

theorem mem_joinStr {sep : String} {parts : List Str} {c : Char} (member : c ∈ joinStr sep parts) :
    c ∈ sep.toList ∨ ∃ part ∈ parts, c ∈ part := by
  unfold joinStr at member
  induction parts with
  | nil => exact absurd member List.not_mem_nil
  | cons part rest ih =>
    cases rest with
    | nil => exact .inr ⟨part, List.mem_singleton_self _, by simpa using member⟩
    | cons next rest =>
      rw [List.intercalate_cons_cons, List.append_assoc, List.mem_append, List.mem_append] at member
      rcases member with first | between | later
      · exact .inr ⟨part, List.mem_cons_self, first⟩
      · exact .inl between
      · obtain separator | ⟨other, listed, inside⟩ := ih later
        · exact .inl separator
        · exact .inr ⟨other, List.mem_cons_of_mem _ listed, inside⟩

theorem readValues_append (some : values ≠ []) (names : ∀ v ∈ values, LabelText v) :
    readValues (joinStr "," values ++ ([')'] ++ rest)) = Option.some (values, rest) := by
  have inside : ∀ c ∈ joinStr "," values, decide (c ≠ ')') = true := by
    intro c member
    apply decide_eq_true
    intro paren
    subst paren
    obtain separator | ⟨v, listed, inside⟩ := mem_joinStr member
    · exact absurd separator (by decide)
    · exact absurd (names v listed ')' inside) (by decide)
  unfold readValues
  rw [List.dropWhile_append_of_pos inside, List.takeWhile_append_of_pos inside]
  simp only [List.singleton_append, ne_eq, not_true_eq_false, decide_false, Bool.false_eq_true,
    not_false_eq_true, List.dropWhile_cons_of_neg, List.takeWhile_cons_of_neg, List.append_nil,
    Option.some.injEq, Prod.mk.injEq, and_true]
  exact List.splitOn_intercalate ',' (fun v member inside => absurd (names v member ',' inside) (by decide)) some

theorem comparison_cases (equality containment : String) (values : List Str) :
    (∃ v, values = [v] ∧ Literal.comparison equality containment values = equality.toList ++ v) ∨
      Literal.comparison equality containment values =
        containment.toList ++ (joinStr "," values ++ [')']) := by
  unfold Literal.comparison
  split
  case h_1 v => exact .inl ⟨v, rfl, rfl⟩
  case h_2 => exact .inr (List.append_assoc _ _ _)

theorem readComparison_isIn (some : values ≠ []) (names : ∀ v ∈ values, LabelText v)
    (stops : Stops rest) : readComparison k (Literal.comparison "=" " in (" values ++ rest) =
      Option.some (.isIn k values, rest) := by
  unfold readComparison
  obtain ⟨v, rfl, shape⟩ | shape := comparison_cases "=" " in (" values
  · rw [shape, List.append_assoc, after_append]
    simp only [readName_append (names v List.mem_cons_self) stops]
  · have equality (s : Str) : after "=" (" in (".toList ++ s) = none := by simp [after]
    have difference (s : Str) : after "!=" (" in (".toList ++ s) = none := by simp [after]
    rw [shape, List.append_assoc, List.append_assoc, equality, difference, after_append]
    simp only [readValues_append some names]
    rfl

theorem readComparison_notIn (some : values ≠ []) (names : ∀ v ∈ values, LabelText v)
    (stops : Stops rest) : readComparison k (Literal.comparison "!=" " not in (" values ++ rest) =
      Option.some (.notIn k values, rest) := by
  unfold readComparison
  obtain ⟨v, rfl, shape⟩ | shape := comparison_cases "!=" " not in (" values
  · have equality (s : Str) : after "=" ("!=".toList ++ s) = none := by simp [after]
    rw [shape, List.append_assoc, equality, after_append]
    simp only [readName_append (names v List.mem_cons_self) stops]
  · have equality (s : Str) : after "=" (" not in (".toList ++ s) = none := by simp [after]
    have difference (s : Str) : after "!=" (" not in (".toList ++ s) = none := by simp [after]
    have containment (s : Str) : after " in (" (" not in (".toList ++ s) = none := by simp [after]
    rw [shape, List.append_assoc, List.append_assoc, equality, difference, containment, after_append]
    simp only [Option.bind_eq_bind, Option.bind_some, readValues_append some names]
    rfl

/-- A comparison ends the key, and is no parenthesis. -/
theorem comparison_head (equality containment : String) (values : List Str)
    (signs : equality ∈ ["=", "!="]) (words : containment ∈ [" in (", " not in ("]) :
    ∃ c s, Literal.comparison equality containment values = c :: s ∧ labelChar c = false ∧ c ≠ '(' := by
  obtain ⟨v, -, shape⟩ | shape := comparison_cases equality containment values
  · rw [shape]
    simp only [List.mem_cons, List.not_mem_nil, or_false] at signs
    rcases signs with rfl | rfl
    · exact ⟨'=', v, rfl, by decide, by decide⟩
    · exact ⟨'!', '=' :: v, rfl, by decide, by decide⟩
  · rw [shape]
    simp only [List.mem_cons, List.not_mem_nil, or_false] at words
    rcases words with rfl | rfl
    · exact ⟨' ', _, rfl, by decide, by decide⟩
    · exact ⟨' ', _, rfl, by decide, by decide⟩

/-- A text that starts with a key and a comparison is read as such. -/
theorem readLiteral_compared {tail : Str} {c : Char} (nonempty : k ≠ []) (name : LabelText k)
    (stop : labelChar c = false) (other : c ≠ '(') :
    readLiteral (k ++ c :: tail) = readComparison k (c :: tail) := by
  have split : readName (k ++ c :: tail) = (k, c :: tail) :=
    readName_append name fun d first => Option.some.inj first ▸ stop
  have paren : after "(" (c :: tail) = none := by simp [after, Ne.symm other]
  obtain ⟨d, k, rfl⟩ := List.exists_cons_of_ne_nil nonempty
  have letter : labelChar d = true := name d List.mem_cons_self
  unfold readLiteral
  split
  case h_1 same =>
    rw [(List.cons.inj same).1] at letter
    exact absurd letter (by decide)
  case h_2 same =>
    rw [(List.cons.inj same).1] at letter
    exact absurd letter (by decide)
  case h_3 => rw [split, paren]

theorem readLiteral_text (wellFormed : literal.WellFormed) (stops : Stops rest) :
    readLiteral (literal.text ++ rest) = some (literal, rest) := by
  cases literal with
  | has k =>
    have name : LabelText "has".toList := List.all_iff_forall_prop.mp (by decide)
    have split : readName (hasStr k ++ rest) = ("has".toList, "(".toList ++ (k ++ ")".toList ++ rest)) :=
      readName_append name fun c first => Option.some.inj first ▸ by decide
    show (match after "(" (readName (hasStr k ++ rest)).2 with
      | some _ => (readHas (hasStr k ++ rest)).map fun ((k, s) : Str × Str) => (Literal.has k, s)
      | none => readComparison (readName (hasStr k ++ rest)).1 (readName (hasStr k ++ rest)).2) = _
    rw [split, after_append, readHas_append wellFormed.2]
    rfl
  | lacks k =>
    show (readHas (hasStr k ++ rest)).map _ = _
    rw [readHas_append wellFormed.2]
    rfl
  | isIn k values =>
    obtain ⟨⟨nonempty, name⟩, some, names⟩ := wellFormed
    have reading : readComparison k _ = _ := readComparison_isIn some names stops
    obtain ⟨c, s, shape, stop, other⟩ := comparison_head "=" " in ("
      values (by decide) (by decide)
    show readLiteral ((k ++ Literal.comparison _ _ values) ++ rest) = _
    rw [List.append_assoc]
    rw [shape] at reading ⊢
    rw [List.cons_append, readLiteral_compared nonempty name stop other]
    exact reading
  | notIn k values =>
    obtain ⟨⟨nonempty, name⟩, some, names⟩ := wellFormed
    have reading : readComparison k _ = _ := readComparison_notIn some names stops
    obtain ⟨c, s, shape, stop, other⟩ := comparison_head "!=" " not in ("
      values (by decide) (by decide)
    show readLiteral ((k ++ Literal.comparison _ _ values) ++ rest) = _
    rw [List.append_assoc]
    rw [shape] at reading ⊢
    rw [List.cons_append, readLiteral_compared nonempty name stop other]
    exact reading
  | hasNotIn k values =>
    obtain ⟨⟨nonempty, name⟩, some, names⟩ := wellFormed
    have close : Stops (")".toList ++ rest) := fun c first => Option.some.inj first ▸ by decide
    have reading : readComparison k _ = _ := readComparison_notIn some names close
    obtain ⟨c, s, shape, stop, -⟩ := comparison_head "!=" " not in ("
      values (by decide) (by decide)
    have split : readName (k ++ (Literal.comparison "!=" " not in (" values ++ (")".toList ++ rest))) =
        (k, Literal.comparison "!=" " not in (" values ++ (")".toList ++ rest)) := by
      apply readName_append name
      rw [shape]
      exact fun d first => Option.some.inj first ▸ stop
    have regroup : Literal.text (.hasNotIn k values) ++ rest = '(' :: (hasStr k ++ (" and ".toList ++
        (k ++ (Literal.comparison "!=" " not in (" values ++ (")".toList ++ rest))))) := by
      simp [Literal.text]
    rw [regroup]
    show (do
      let (key, s) ← readHas _
      let s ← after " and " s
      let (literal, s) ← readComparison (readName s).1 (readName s).2
      let s ← after ")" s
      match literal with
      | .notIn k values => if k = key then pure (Literal.hasNotIn k values, s) else none
      | _ => none) = _
    simp only [Option.bind_eq_bind, Option.bind_some, readHas_append name, after_append, split, reading,
      if_pos, Option.pure_def]

theorem text_head (wellFormed : literal.WellFormed) :
    ∃ c s, literal.text = c :: s ∧ c ≠ '\x7b' := by
  have key {k : Str} (nonempty : k ≠ []) (name : LabelText k) (s : Str) :
      ∃ c t, k ++ s = c :: t ∧ c ≠ '\x7b' := by
    obtain ⟨c, k, rfl⟩ := List.exists_cons_of_ne_nil nonempty
    have letter : labelChar c = true := name c List.mem_cons_self
    exact ⟨c, k ++ s, rfl, fun brace => absurd (brace ▸ letter) (by decide)⟩
  cases literal with
  | has k => exact ⟨'h', _, rfl, by decide⟩
  | lacks k => exact ⟨'!', _, rfl, by decide⟩
  | isIn k values => exact key wellFormed.1.1 wellFormed.1.2 _
  | notIn k values => exact key wellFormed.1.1 wellFormed.1.2 _
  | hasNotIn k values => exact ⟨'(', _, rfl, by decide⟩

theorem length_joinStr {sep : String} {parts : List Str} (each : ∀ part ∈ parts, part ≠ []) :
    parts.length ≤ (joinStr sep parts).length := by
  unfold joinStr
  induction parts with
  | nil => exact Nat.zero_le _
  | cons part rest ih =>
    obtain ⟨first, later⟩ := List.forall_mem_cons.mp each
    have longer := List.length_pos_of_ne_nil first
    cases rest with
    | nil =>
      simp
      omega
    | cons next rest =>
      have short := ih later
      rw [List.intercalate_cons_cons, List.length_append, List.length_append, List.length_cons]
      omega

/-- A sequence is read when each of its items is, whatever may follow it. -/
theorem readMany_join {α : Type} {read : Str → Option (α × Str)} {sep : String} {text : α → Str}
    {ok : Str → Prop} {items : List α} {fuel : Nat} (some : items ≠ [])
    (each : ∀ item ∈ items, ∀ rest, ok rest → read (text item ++ rest) = Option.some (item, rest))
    (between : ∀ s, ok (sep.toList ++ s)) (follows : ok rest) (ended : after sep rest = none)
    (enough : items.length ≤ fuel) :
    readMany read sep fuel (joinStr sep (items.map text) ++ rest) = Option.some (items, rest) := by
  unfold joinStr
  induction items generalizing fuel with
  | nil => exact absurd rfl some
  | cons item items ih =>
    obtain ⟨first, later⟩ := List.forall_mem_cons.mp each
    obtain ⟨fuel, rfl⟩ := Nat.exists_eq_succ_of_ne_zero (by simp at enough; omega : fuel ≠ 0)
    unfold readMany
    cases items with
    | nil =>
      have single : sep.toList.intercalate ([item].map text) = text item := by simp
      rw [single, first rest follows]
      simp [ended]
    | cons next items =>
      have more := ih (List.cons_ne_nil _ _) later (Nat.succ_le_succ_iff.mp enough)
      rw [List.map_cons, List.map_cons, List.intercalate_cons_cons, ← List.map_cons (f := text),
        List.append_assoc, List.append_assoc, first _ (between _)]
      simp only [Option.bind_eq_bind, Option.bind_some, after_append, more, Option.pure_def]

/-- What may follow a clause. -/
def Ends (rest : Str) : Prop := Stops rest ∧ after " or " rest = none

theorem readMany_orText (wellFormed : ∀ literal ∈ clause, literal.WellFormed) (some : clause ≠ [])
    (ends : Ends rest) {fuel : Nat} (enough : clause.length ≤ fuel) :
    readMany readLiteral " or " fuel (Formula.orText clause ++ rest) = Option.some (clause, rest) := by
  apply readMany_join some _ _ ends.1 ends.2 enough
  · intro literal member rest stops
    exact readLiteral_text (wellFormed literal member) stops
  · exact fun s c first => Option.some.inj first ▸ by decide

theorem length_orText (wellFormed : ∀ literal ∈ clause, literal.WellFormed) :
    clause.length ≤ (Formula.orText clause).length := by
  have each : ∀ part ∈ clause.map Literal.text, part ≠ [] := by
    intro part member
    obtain ⟨literal, listed, rfl⟩ := List.mem_map.mp member
    obtain ⟨c, s, shape, -⟩ := text_head (wellFormed literal listed)
    simp [shape]
  have longer := @length_joinStr " or " _ each
  rwa [List.length_map] at longer

/-- A disjunction without braces. -/
theorem readClause_orText (wellFormed : ∀ literal ∈ clause, literal.WellFormed) (some : clause ≠ [])
    (ends : Ends rest) :
    readClause (Formula.orText clause ++ rest) = Option.some (clause, rest) := by
  have plain : after "\x7b" (Formula.orText clause ++ rest) = none := by
    obtain ⟨literal, others, rfl⟩ := List.exists_cons_of_ne_nil some
    obtain ⟨c, s, shape, other⟩ := text_head (wellFormed literal List.mem_cons_self)
    cases others <;> simp [Formula.orText, joinStr, shape, after, Ne.symm other]
  unfold readClause
  rw [plain]
  apply readMany_orText wellFormed some ends
  have longer := length_orText wellFormed
  rw [List.length_append]
  omega

theorem readClause_text (wellFormed : ∀ literal ∈ clause, literal.WellFormed) (some : clause ≠ [])
    (ends : Ends rest) :
    readClause (Formula.clauseText clause ++ rest) = Option.some (clause, rest) := by
  unfold Formula.clauseText
  split
  case isTrue =>
    have brace : Ends ("\x7d".toList ++ rest) :=
      ⟨fun c first => Option.some.inj first ▸ by decide, by simp [after]⟩
    unfold readClause
    rw [List.append_assoc, List.append_assoc, after_append]
    have longer := length_orText wellFormed
    simp only [Option.bind_eq_bind]
    rw [readMany_orText wellFormed some brace (by rw [List.length_append]; omega)]
    simp only [Option.bind_some, after_append, Option.pure_def]
  case isFalse => exact readClause_orText wellFormed some ends

/-- A formula is what its text is read as. -/
theorem readFormula_text (wellFormed : formula.WellFormed) : readFormula formula.text = some formula := by
  obtain ⟨some, each⟩ := wellFormed
  have nothing : Ends [] := ⟨fun c first => absurd first (by simp), rfl⟩
  have last : after " and " [] = none := rfl
  unfold readFormula Formula.text
  split
  case h_1 clause =>
    obtain ⟨nonempty, literals⟩ := each clause List.mem_cons_self
    have reading := readClause_orText literals nonempty nothing
    rw [List.append_nil] at reading
    unfold readMany
    simp only [Option.bind_eq_bind, Option.bind_some, reading, last, Option.pure_def, if_pos]
  case h_2 =>
    have long : ∀ part ∈ formula.map Formula.clauseText, part ≠ [] := by
      intro part member
      obtain ⟨clause, listed, rfl⟩ := List.mem_map.mp member
      obtain ⟨nonempty, literals⟩ := each clause listed
      have longer := length_orText literals
      have positive := List.length_pos_of_ne_nil nonempty
      unfold Formula.clauseText
      split
      case isTrue => simp
      case isFalse => exact List.ne_nil_of_length_pos (by omega)
    have enough := @length_joinStr " and " _ long
    rw [List.length_map] at enough
    have reading := @readMany_join [] _ readClause " and " Formula.clauseText Ends formula
      ((joinStr " and " (formula.map Formula.clauseText)).length + 1) some
      (fun clause member rest ends => readClause_text (each clause member).2 (each clause member).1 ends)
      (fun s => ⟨fun c first => Option.some.inj first ▸ by decide, by simp [after]⟩) nothing last
      (by omega)
    rw [List.append_nil] at reading
    simp only [Option.bind_eq_bind, Option.bind_some, reading, Option.pure_def, if_pos]

end RoundTrip

section Braces

variable {literal : Literal} {clause : Clause}

/-- A text without braces. -/
def Plain (s : Str) : Prop := ∀ c ∈ s, c ≠ '\x7b' ∧ c ≠ '\x7d'

theorem plain_word {s : Str} (each : (s.all fun c => decide (c ≠ '\x7b' ∧ c ≠ '\x7d')) = true) :
    Plain s := List.all_iff_forall_prop.mp each

theorem plain_append {s t : Str} (first : Plain s) (second : Plain t) : Plain (s ++ t) :=
  fun c member => (List.mem_append.mp member).elim (first c) (second c)

theorem plain_name {s : Str} (name : LabelText s) : Plain s :=
  fun c member => ⟨fun same => absurd (name c member) (by rw [same]; decide),
    fun same => absurd (name c member) (by rw [same]; decide)⟩

theorem plain_joinStr {sep : String} {parts : List Str} (between : Plain sep.toList)
    (each : ∀ part ∈ parts, Plain part) : Plain (joinStr sep parts) := by
  intro c member
  obtain separator | ⟨part, listed, inside⟩ := mem_joinStr member
  · exact between c separator
  · exact each part listed c inside

theorem plain_hasStr {k : Str} (name : LabelText k) : Plain (hasStr k) :=
  plain_append (plain_append (plain_word (by decide)) (plain_name name)) (plain_word (by decide))

theorem plain_comparison {equality containment : String} {values : List Str}
    (signs : Plain equality.toList) (words : Plain containment.toList)
    (names : ∀ v ∈ values, LabelText v) : Plain (Literal.comparison equality containment values) := by
  obtain ⟨v, rfl, shape⟩ | shape := comparison_cases equality containment values
  · rw [shape]
    exact plain_append signs (plain_name (names v List.mem_cons_self))
  · rw [shape]
    apply plain_append words (plain_append (plain_joinStr (plain_word (by decide)) _)
      (plain_word (by decide)))
    exact fun v member => plain_name (names v member)

theorem plain_text (wellFormed : literal.WellFormed) : Plain literal.text := by
  cases literal with
  | has k => exact plain_hasStr wellFormed.2
  | lacks k =>
    show Plain (['!'] ++ hasStr k)
    exact plain_append (plain_word (by decide)) (plain_hasStr wellFormed.2)
  | isIn k values =>
    apply plain_append (plain_name wellFormed.1.2) (plain_comparison _ _ wellFormed.2.2)
    all_goals exact plain_word (by decide)
  | notIn k values =>
    apply plain_append (plain_name wellFormed.1.2) (plain_comparison _ _ wellFormed.2.2)
    all_goals exact plain_word (by decide)
  | hasNotIn k values =>
    apply plain_append (plain_append (plain_append (plain_append _ (plain_hasStr wellFormed.1.2)) _)
      (plain_append (plain_name wellFormed.1.2) (plain_comparison _ _ wellFormed.2.2))) _
    all_goals exact plain_word (by decide)

/-- Without the braces a disjunction is printed as it is alone. -/
theorem clauseText_stripped (wellFormed : ∀ literal ∈ clause, literal.WellFormed) :
    (Formula.clauseText clause).filter (fun c => decide (c ≠ '\x7b' ∧ c ≠ '\x7d')) =
      Formula.orText clause := by
  have plain : Plain (Formula.orText clause) := by
    apply plain_joinStr
    · exact plain_word (by decide)
    · intro part member
      obtain ⟨literal, listed, rfl⟩ := List.mem_map.mp member
      exact plain_text (wellFormed literal listed)
  have kept : (Formula.orText clause).filter (fun c => decide (c ≠ '\x7b' ∧ c ≠ '\x7d')) =
      Formula.orText clause := by
    apply List.filter_eq_self.mpr
    exact fun c member => decide_eq_true (plain c member)
  unfold Formula.clauseText
  split
  case isTrue =>
    rw [List.filter_append, List.filter_append, kept]
    exact List.append_nil _
  case isFalse => exact kept

end Braces

end Nca.FWRules
