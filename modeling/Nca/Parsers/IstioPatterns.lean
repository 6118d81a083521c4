import Nca.Parsers.IngressHosts

/-!
The patterns of paths and hosts in an operation of an authorization policy, which become one regular
expression for all values and one for all negative values. What the automaton has besides the words
of its dimension comes from values that leave the domain, and from differences that are found in the
caches although they were made for the other dimension.
-/

namespace Nca.Parsers
open CoreDS Lib MinDFA

/-- The dimensions of type `DFA`. -/
inductive DfaDimension where
  | paths
  | hosts
  deriving DecidableEq, Repr

section Model

variable {D : Type} [MinDFA D] (unicode : Char → Bool)

/-- The text of the regular expression of the paths domain. -/
def pathDomainText : Str := '/' :: default_alphabet_regex

/-- `get_dimension_domain_by_name`. -/
def DfaDimension.domain : DfaDimension → D
  | .paths => pathDomain
  | .hosts => hostDomain

def validateIstioRegexPattern (regex_str : Str) : Except ParseError Unit :=
  if '*' ∈ regex_str ∧ ¬ (regex_str.count '*' = 1 ∧
      (regex_str.head? = some '*' ∨ regex_str.getLast? = some '*')) then
    throw (.SyntaxError s!"Illegal str value pattern: {String.ofList regex_str}")
  else return ()

/-- `[.\w/\-]`, the class of the characters that a star stands for. -/
def allowed_chars : Str := "[.\\w/\\-]".toList

/-- `str_val_input.replace(".", "[.]")`. -/
def escapeDots (str_val_input : Str) : Str :=
  str_val_input.flatMap fun c => if c = '.' then "[.]".toList else [c]

/-- The expression of one value; `operation` is the printed operation. -/
def parseStrValue (operation dim_name : String) (str_val_input : Str) : Except ParseError Str := do
  if !str_val_input.all fun c => c == '*' || c == '.' || isReWord unicode c || c == '/' || c == '-' then
    throw (.SyntaxError
      s!"Illegal characters in {dim_name} {String.ofList str_val_input} in {operation}")
  let res := escapeDots str_val_input
  if '*' ∈ res then
    validateIstioRegexPattern res
    if res = ['*'] then return allowed_chars ++ ['+']
    if res.head? = some '*' ∨ res.getLast? = some '*' then
      return res.flatMap fun c => if c = '*' then allowed_chars ++ ['*'] else [c]
    return res
  return res

def getValuesListRegex (operation dim_name : String) (values_list : List Str) :
    Except ParseError Str := do
  if values_list = [] then throw .AssertionError
  return ['|'].intercalate (← values_list.mapM (parseStrValue unicode operation dim_name))

/-- What earlier calls left: whether the automaton of the text of the paths domain is the object of
the domain, the domains of which the `complement_dfa` of the automaton of a text was made, and
those of the results that the cache of `__sub__` holds for a domain. -/
structure Caches (D : Type) where
  domain_shared : Bool
  complement_dfa : Str → Option DfaDimension
  sub : DfaDimension → D → Option DfaDimension

/-- The dimension whose domain an automaton is equal to. -/
def dimensionOf (self : D) : Option DfaDimension :=
  if self = DfaDimension.paths.domain then some .paths
  else if self = DfaDimension.hosts.domain then some .hosts else none

namespace Caches

/-- The difference that `__sub__` finds: that of the domain of some dimension. -/
def found (caches : Caches D) (self : D) (is_all_words : Bool) (other : Str) : Option DfaDimension := do
  let dim ← dimensionOf self
  caches.sub dim (dfaFromRegex other) <|> if is_all_words then caches.complement_dfa other else none

/-- `__sub__` of an automaton and the automaton of a text. -/
def subtract (caches : Caches D) (self : D) (is_all_words : Bool) (other : Str) : D × Caches D :=
  let other_dfa : D := dfaFromRegex other
  match caches.found self is_all_words other with
  | some dim => (dim.domain \ other_dfa, caches)
  | none =>
    match dimensionOf self with
    | none => (self \ other_dfa, caches)
    | some dim =>
      (self \ other_dfa,
        { caches with
          complement_dfa := fun text =>
            if is_all_words ∧ text = other then some dim else caches.complement_dfa text
          sub := fun domain dfa =>
            if domain = dim ∧ dfa = other_dfa then some dim else caches.sub domain dfa })

end Caches

/-- The automaton of the values, and whether it is marked as all words. -/
def valuesDfa (caches : Caches D) (dim : DfaDimension) (positive_regex : Option Str) : D × Bool :=
  match positive_regex with
  | none => (dim.domain, true)
  | some text => (dfaFromRegex text, caches.domain_shared && text == pathDomainText)

def parseRegexDimensionValues (caches : Caches D) (operation dim_name : String) (dim : DfaDimension)
    (values_list negative_values_list : Option (List Str)) :
    Except ParseError (Option D × Caches D) := do
  if values_list = none ∧ negative_values_list = none then return (none, caches)
  let positive_regex ← values_list.mapM (getValuesListRegex unicode operation dim_name)
  let (values_dfa, is_all_words) := valuesDfa caches dim positive_regex
  match negative_values_list with
  | none => return (some values_dfa, caches)
  | some negative_values_list =>
    let negative_regex ← getValuesListRegex unicode operation dim_name negative_values_list
    let (res, caches) := caches.subtract values_dfa is_all_words negative_regex
    return (some res, caches)

end Model

/-- The words that a value stands for: itself, or what its star makes of it. -/
def Takes (value w : Str) : Prop :=
  if '*' ∉ value then w = value
  else if value = ['*'] then w ≠ [] ∧ ∀ c ∈ w, isAlphabetChar c = true
  else if value.head? = some '*' then
    ∃ run, (∀ c ∈ run, isAlphabetChar c = true) ∧ w = run ++ value.tail
  else ∃ run, (∀ c ∈ run, isAlphabetChar c = true) ∧ w = value.dropLast ++ run

variable {D : Type} [MinDFA D] {unicode : Char → Bool} {operation dim_name : String} {v w text : Str}
  {values : List Str}

section Values

/-- At most one star, at the beginning or at the end. -/
def StarShape (v : Str) : Prop :=
  '*' ∉ v ∨ (∃ x, v = '*' :: x ∧ '*' ∉ x) ∨ ∃ x, v = x ++ ['*'] ∧ '*' ∉ x

/-- What is checked of a value. -/
structure AcceptedValue (unicode : Char → Bool) (v : Str) : Prop where
  legal : ∀ c ∈ v, HostChar unicode c
  shape : StarShape v

theorem validateIstioRegexPattern_ok (valid : validateIstioRegexPattern v = .ok ()) :
    StarShape v := by
  unfold validateIstioRegexPattern at valid
  by_cases star : '*' ∈ v
  · split at valid
    · cases valid
    · rename_i legal
      rw [not_and_not_right] at legal
      obtain ⟨once, head | last⟩ := legal star
      · obtain ⟨x, rfl⟩ := List.head?_eq_some_iff.mp head
        rw [List.count_cons_self, Nat.add_eq_right, List.count_eq_zero] at once
        exact Or.inr (Or.inl ⟨x, rfl, once⟩)
      · obtain ⟨x, rfl⟩ := List.getLast?_eq_some_iff.mp last
        rw [List.count_append, List.count_singleton_self, Nat.add_eq_right,
          List.count_eq_zero] at once
        exact Or.inr (Or.inr ⟨x, rfl, once⟩)
  · exact Or.inl star

theorem escapeDots_append (u v : Str) : escapeDots (u ++ v) = escapeDots u ++ escapeDots v :=
  List.flatMap_append

theorem star_escapeDots : '*' ∈ escapeDots v ↔ '*' ∈ v := by
  rw [escapeDots, List.mem_flatMap]
  constructor
  · intro ⟨c, inside, star⟩
    by_cases dot : c = '.'
    · rw [if_pos dot] at star
      exact absurd star (by decide)
    · rw [if_neg dot, List.mem_singleton] at star
      rwa [star]
  · intro inside
    exact ⟨'*', inside, List.mem_singleton_self '*'⟩

theorem escapeDots_cons_star {x : Str} (start : escapeDots v = '*' :: x) :
    ∃ rest, v = '*' :: rest ∧ x = escapeDots rest := by
  cases v with
  | nil => cases start
  | cons c rest =>
    unfold escapeDots at start
    rw [List.flatMap_cons] at start
    by_cases dot : c = '.'
    · rw [if_pos dot] at start
      exact absurd (List.cons.inj start).1 (by decide)
    · rw [if_neg dot] at start
      obtain ⟨rfl, rest_⟩ := List.cons.inj start
      exact ⟨rest, rfl, rest_.symm⟩

theorem escapeDots_concat_star {x : Str} (last : escapeDots v = x ++ ['*']) :
    ∃ front, v = front ++ ['*'] ∧ x = escapeDots front := by
  rcases List.eq_nil_or_concat v with rfl | ⟨front, c, rfl⟩
  · cases x <;> cases last
  · rw [List.concat_eq_append, escapeDots_append] at last
    by_cases dot : c = '.'
    · have bracket : escapeDots [c] = ['[', '.'] ++ [']'] := by rw [dot]; rfl
      rw [bracket, ← List.append_assoc] at last
      exact absurd (List.append_inj' last rfl).2 (by decide)
    · have self : escapeDots [c] = [c] := by simp [escapeDots, dot]
      rw [self] at last
      obtain ⟨rest, same⟩ := List.append_inj' last rfl
      exact ⟨front, by rw [(List.cons.inj same).1, List.concat_eq_append], rest.symm⟩

theorem StarShape.of_escapeDots (shape : StarShape (escapeDots v)) : StarShape v := by
  rcases shape with none | ⟨x, start, once⟩ | ⟨x, last, once⟩
  · exact Or.inl (mt star_escapeDots.mpr none)
  · obtain ⟨rest, rfl, rfl⟩ := escapeDots_cons_star start
    exact Or.inr (Or.inl ⟨rest, rfl, mt star_escapeDots.mpr once⟩)
  · obtain ⟨front, rfl, rfl⟩ := escapeDots_concat_star last
    exact Or.inr (Or.inr ⟨front, rfl, mt star_escapeDots.mpr once⟩)

end Values

section Expressions

/-- A value in parts: its characters, or the star of a value that is nothing else. -/
def valueItems (v : Str) : List (Option Char) := if v = ['*'] then [none] else v.map some

def itemText : Option Char → Str
  | none => allowed_chars ++ ['+']
  | some c => if c = '.' then "[.]".toList else if c = '*' then allowed_chars ++ ['*'] else [c]

def itemRegex : Option Char → Regex
  | none => .seq (.chars isAlphabetChar) (.star (.chars isAlphabetChar))
  | some c =>
    if c = '.' then .chars fun d => false || d == '.'
    else if c = '*' then .star (.chars isAlphabetChar) else Regex.plain c

/-- The text of the regular expression of a list of values. -/
def regexText (values : List Str) : Str :=
  ['|'].intercalate (values.map fun v => (valueItems v).flatMap itemText)

theorem escapeDots_text (noStar : '*' ∉ v) : escapeDots v = (v.map some).flatMap itemText := by
  rw [List.flatMap_map]
  refine List.flatMap_congr fun c inside => ?_
  have ordinary : c ≠ '*' := fun star => noStar (star ▸ inside)
  simp only [itemText, if_neg ordinary]

theorem escapeDots_replaced : ((escapeDots v).flatMap fun c =>
    if c = '*' then allowed_chars ++ ['*'] else [c]) = (v.map some).flatMap itemText := by
  rw [escapeDots, List.flatMap_assoc, List.flatMap_map]
  refine List.flatMap_congr fun c _ => ?_
  dsimp only [itemText]
  by_cases dot : c = '.'
  · rw [if_pos dot, if_pos dot]
    rfl
  · rw [if_neg dot, if_neg dot]
    exact List.flatMap_singleton _ c

theorem parseStrValue_ok (parsed : parseStrValue unicode operation dim_name v = .ok text) :
    AcceptedValue unicode v ∧ text = (valueItems v).flatMap itemText := by
  unfold parseStrValue at parsed
  by_cases legal : (v.all fun c =>
      c == '*' || c == '.' || isReWord unicode c || c == '/' || c == '-') = true
  · have chars : ∀ c ∈ v, HostChar unicode c := by
      intro c inside
      have allowed := List.all_eq_true.mp legal c inside
      simpa [HostChar, or_assoc] using allowed
    rw [legal, Bool.not_true, if_neg Bool.false_ne_true] at parsed
    by_cases star : '*' ∈ escapeDots v
    · rw [if_pos star] at parsed
      obtain ⟨_, checked, parsed⟩ := bind_ok.mp parsed
      have shape := validateIstioRegexPattern_ok checked
      refine ⟨⟨chars, shape.of_escapeDots⟩, ?_⟩
      by_cases alone : escapeDots v = ['*']
      · rw [if_pos alone] at parsed
        obtain ⟨rest, rfl, empty⟩ := escapeDots_cons_star alone
        cases rest with
        | nil => exact (Except.ok.inj parsed).symm
        | cons c rest =>
          rw [escapeDots, List.flatMap_cons, eq_comm, List.append_eq_nil_iff] at empty
          by_cases dot : c = '.'
          · rw [if_pos dot] at empty
            exact absurd empty.1 (by decide)
          · rw [if_neg dot] at empty
            cases empty.1
      · have several : v ≠ ['*'] := by
          rintro rfl
          exact alone rfl
        rw [if_neg alone] at parsed
        rw [valueItems, if_neg several, ← escapeDots_replaced]
        split at parsed
        · exact (Except.ok.inj parsed).symm
        · rename_i inner
          rcases shape with none | ⟨x, start, _⟩ | ⟨x, last, _⟩
          · exact (none star).elim
          · exact (inner (Or.inl (by rw [start, List.head?_cons]))).elim
          · exact (inner (Or.inr (by rw [last, List.getLast?_concat]))).elim
    · rw [if_neg star] at parsed
      have noStar : '*' ∉ v := mt star_escapeDots.mpr star
      have several : v ≠ ['*'] := fun alone => noStar (alone ▸ List.mem_cons_self)
      refine ⟨⟨chars, Or.inl noStar⟩, ?_⟩
      rw [valueItems, if_neg several, ← escapeDots_text noStar]
      exact (Except.ok.inj parsed).symm
  · rw [Bool.not_eq_true] at legal
    rw [legal] at parsed
    cases parsed

theorem getValuesListRegex_ok
    (parsed : getValuesListRegex unicode operation dim_name values = .ok text) :
    values ≠ [] ∧ (∀ v ∈ values, AcceptedValue unicode v) ∧ text = regexText values := by
  unfold getValuesListRegex at parsed
  by_cases empty : values = []
  · rw [if_pos empty] at parsed
    cases parsed
  · rw [if_neg empty] at parsed
    obtain ⟨texts, each, joined⟩ := bind_ok.mp parsed
    obtain rfl := Except.ok.inj joined
    have accepted := (mapM_ok each).imp fun v text read => parseStrValue_ok read
    refine ⟨empty, fun v inside => ?_, ?_⟩
    · obtain ⟨i, bound, rfl⟩ := List.mem_iff_getElem.mp inside
      exact (accepted.get bound (accepted.length_eq ▸ bound)).1
    · have same : texts = values.map fun v => (valueItems v).flatMap itemText := by
        rw [← List.forall₂_eq_eq_eq, List.forall₂_map_right_iff]
        exact (accepted.imp fun v text both => both.2).flip
      rw [regexText, same]

theorem read_allowed_chars (group : Regex.Group) : (allowed_chars ++ ['+']).foldl Regex.Reader.step
    ⟨[], group, .text⟩ = ⟨[], group.push (itemRegex none), .text⟩ := by
  have same : isAlphabetChar =
      fun c => (((false || c == '.') || Regex.escaped 'w' c) || c == '/') || Regex.escaped '-' c := by
    funext c
    simp [isAlphabetChar, Regex.escaped]
  rw [itemRegex, same]
  rfl

theorem read_itemText (accepted : AcceptedValue unicode v) : ∀ x ∈ valueItems v, ∀ group,
    (itemText x).foldl Regex.Reader.step ⟨[], group, .text⟩ =
      ⟨[], group.push (itemRegex x), .text⟩ := by
  intro x inside group
  cases x with
  | none => exact read_allowed_chars group
  | some c =>
    have legal : HostChar unicode c := by
      by_cases alone : v = ['*']
      · simp [valueItems, alone] at inside
      · simp only [valueItems, alone, if_false, List.mem_map, Option.some.injEq,
          exists_eq_right] at inside
        exact accepted.legal c inside
    dsimp only [itemText, itemRegex]
    by_cases dot : c = '.'
    · rw [if_pos dot, if_pos dot]
      rfl
    · rw [if_neg dot, if_neg dot]
      by_cases star : c = '*'
      · rw [if_pos star, if_pos star]
        exact read_alphabet
      · rw [if_neg star, if_neg star]
        exact Regex.step_plain (plain_of_valid (legal.resolve_left star))

theorem spells_plainItems (noStar : '*' ∉ v) :
    Regex.Spells itemRegex (v.map some) w ↔ w = v := by
  induction v generalizing w with
  | nil =>
    constructor
    · rintro ⟨⟩
      rfl
    · rintro rfl
      exact .nil
  | cons c rest ih =>
    rw [List.mem_cons, not_or] at noStar
    have first : ∀ u, u ∈ (itemRegex (some c)).lang ↔ u = [c] := by
      intro u
      dsimp only [itemRegex]
      by_cases dot : c = '.'
      · simp [dot]
      · rw [if_neg dot, if_neg (Ne.symm noStar.1), Regex.mem_plain]
        simp [dot]
    constructor
    · intro spells
      cases spells with
      | cons head others => rw [(first _).mp head, (ih noStar.2).mp others, List.singleton_append]
    · rintro rfl
      exact .cons ((first [c]).mpr rfl) ((ih noStar.2).mpr rfl)

theorem spells_star : Regex.Spells itemRegex [some '*'] w ↔ ∀ c ∈ w, isAlphabetChar c = true := by
  rw [Regex.spells_singleton]
  exact Regex.mem_star_chars

theorem spells_alone : Regex.Spells itemRegex [none] w ↔
    w ≠ [] ∧ ∀ c ∈ w, isAlphabetChar c = true := by
  rw [Regex.spells_singleton]
  dsimp only [itemRegex]
  rw [Regex.mem_seq]
  constructor
  · rintro ⟨_, ⟨c, first, rfl⟩, rest, others, rfl⟩
    exact ⟨nofun, List.forall_mem_cons.mpr ⟨first, Regex.mem_star_chars.mp others⟩⟩
  · intro ⟨nonEmpty, each⟩
    obtain ⟨c, rest, rfl⟩ := List.exists_cons_of_ne_nil nonEmpty
    obtain ⟨first, others⟩ := List.forall_mem_cons.mp each
    exact ⟨[c], ⟨c, first, rfl⟩, rest, Regex.mem_star_chars.mpr others, rfl⟩

theorem spells_valueItems (shape : StarShape v) :
    Regex.Spells itemRegex (valueItems v) w ↔ Takes v w := by
  unfold Takes valueItems
  by_cases alone : v = ['*']
  · rw [if_pos alone, if_neg (by simp [alone]), if_pos alone]
    exact spells_alone
  · rw [if_neg alone, if_neg alone]
    by_cases noStar : '*' ∉ v
    · rw [if_pos noStar]
      exact spells_plainItems noStar
    · rw [if_neg noStar]
      rcases shape with none | ⟨x, rfl, once⟩ | ⟨x, rfl, once⟩
      · exact (noStar none).elim
      · rw [if_pos List.head?_cons, List.map_cons, ← List.singleton_append, Regex.spells_append]
        simp only [spells_star, spells_plainItems once, List.tail_cons]
        constructor
        · rintro ⟨run, _, word, rfl, rfl⟩
          exact ⟨run, word, rfl⟩
        · rintro ⟨run, word, rfl⟩
          exact ⟨run, x, word, rfl, rfl⟩
      · have head : (x ++ ['*']).head? ≠ some '*' := by
          intro first
          cases x with
          | nil => exact alone rfl
          | cons c x =>
            rw [List.cons_append, List.head?_cons, Option.some.injEq] at first
            exact once (first ▸ List.mem_cons_self)
        rw [if_neg head, List.map_append, Regex.spells_append]
        simp only [List.map_cons, List.map_nil, spells_star, spells_plainItems once,
          List.dropLast_concat]
        constructor
        · rintro ⟨_, run, rfl, word, rfl⟩
          exact ⟨run, word, rfl⟩
        · rintro ⟨run, word, rfl⟩
          exact ⟨x, run, rfl, word, rfl⟩

/-- The automaton of a list of values has the words that the values stand for. -/
theorem mem_valuesRegex
    (parsed : getValuesListRegex unicode operation dim_name values = .ok text) :
    w ∈ (dfaFromRegex text : D) ↔ ∃ v ∈ values, Takes v w := by
  obtain ⟨nonEmpty, accepted, rfl⟩ := getValuesListRegex_ok parsed
  have items : regexText values =
      ['|'].intercalate ((values.map valueItems).map fun xs => xs.flatMap itemText) := by
    rw [regexText, List.map_map]
    rfl
  rw [mem_dfaFromRegex, items, Regex.mem_parse_alternatives itemText]
  · simp only [List.mem_map, exists_exists_and_eq_and]
    apply exists_congr
    intro v
    apply and_congr_right
    intro inside
    exact spells_valueItems (accepted v inside).shape
  · simpa using nonEmpty
  · intro xs member
    obtain ⟨v, inside, rfl⟩ := List.mem_map.mp member
    exact read_itemText (accepted v inside)

end Expressions

section Dimensions

namespace DfaDimension

/-- A word of the domain of the dimension. -/
def IsWord : DfaDimension → Str → Prop
  | .paths => IsPath
  | .hosts => IsHost

/-- A value all of whose words are in the domain. -/
structure Fits (dim : DfaDimension) (v : Str) : Prop where
  alphabet : ∀ c ∈ v, c = '*' ∨ isAlphabetChar c = true
  slash : dim = .paths → v.head? = some '/'

theorem mem_domain {dim : DfaDimension} : w ∈ (dim.domain : D) ↔ dim.IsWord w := by
  cases dim with
  | paths => exact mem_pathDomain
  | hosts => exact mem_hostDomain

end DfaDimension

/-- The word is one of the values, where there are values. -/
def Wanted (values : Option (List Str)) (w : Str) : Prop :=
  ∀ vs, values = some vs → ∃ v ∈ vs, Takes v w

/-- The word is one of the negative values. -/
def Unwanted (negatives : Option (List Str)) (w : Str) : Prop :=
  ∃ vs, negatives = some vs ∧ ∃ v ∈ vs, Takes v w

/-- The words that the negative values are taken away from: those of the domain of which a
difference is found, else those of the values, or of the dimension if there are none. -/
def Minuend (caches : Caches D) (dim : DfaDimension) (values : Option (List Str))
    (negatives : List Str) (w : Str) : Prop :=
  let start : D × Bool := valuesDfa caches dim (values.map regexText)
  match caches.found start.1 start.2 (regexText negatives) with
  | some other => other.IsWord w
  | none => Wanted values w ∧ (values = none → dim.IsWord w)

variable {caches : Caches D} {dim : DfaDimension}

theorem takes_plain (noStar : '*' ∉ v) : Takes v w ↔ w = v := by
  rw [Takes, if_pos noStar]

theorem takes_front {x : Str} : Takes ('*' :: x) w ↔
    ∃ run, (∀ c ∈ run, isAlphabetChar c = true) ∧ w = run ++ x ∧ (x = [] → run ≠ []) := by
  rw [Takes, if_neg (not_not.mpr List.mem_cons_self)]
  cases x with
  | nil =>
    rw [if_pos rfl]
    constructor
    · intro ⟨nonEmpty, each⟩
      exact ⟨w, each, (List.append_nil w).symm, fun _ => nonEmpty⟩
    · rintro ⟨run, each, rfl, nonEmpty⟩
      rw [List.append_nil]
      exact ⟨nonEmpty rfl, each⟩
  | cons c x =>
    rw [if_neg (by simp), if_pos List.head?_cons, List.tail_cons]
    simp

theorem takes_back {x : Str} (once : '*' ∉ x) (nonEmpty : x ≠ []) : Takes (x ++ ['*']) w ↔
    ∃ run, (∀ c ∈ run, isAlphabetChar c = true) ∧ w = x ++ run := by
  have star : '*' ∈ x ++ ['*'] := List.mem_append_right x List.mem_cons_self
  obtain ⟨c, rest, rfl⟩ := List.exists_cons_of_ne_nil nonEmpty
  have first : c ≠ '*' := fun same => once (same ▸ List.mem_cons_self)
  rw [Takes, if_neg (not_not.mpr star), if_neg (by simp), if_neg (by simpa using first),
    List.dropLast_concat]

/-- A letter in place of the star. -/
def filled (v : Str) : Str := v.map fun c => if c = '*' then 'a' else c

theorem filled_plain (noStar : '*' ∉ v) : filled v = v := by
  have same : ∀ c ∈ v, (if c = '*' then 'a' else c) = id c := by
    intro c inside
    have ordinary : c ≠ '*' := fun star => noStar (star ▸ inside)
    rw [if_neg ordinary, id]
  rw [filled, List.map_congr_left same, List.map_id]

theorem takes_filled (shape : StarShape v) : Takes v (filled v) := by
  have letter : ∀ c ∈ ['a'], isAlphabetChar c = true := List.all_eq_true.mp (by decide)
  rcases shape with noStar | ⟨x, rfl, once⟩ | ⟨x, rfl, once⟩
  · rw [takes_plain noStar]
    exact filled_plain noStar
  · rw [takes_front]
    refine ⟨['a'], letter, ?_, fun _ => List.cons_ne_nil _ _⟩
    show 'a' :: filled x = _
    rw [filled_plain once, List.singleton_append]
  · by_cases empty : x = []
    · rw [empty]
      exact takes_front.mpr ⟨['a'], letter, rfl, fun _ => List.cons_ne_nil _ _⟩
    · rw [takes_back once empty]
      refine ⟨['a'], letter, ?_⟩
      show (x ++ ['*']).map _ = _
      rw [List.map_append]
      exact congrArg (· ++ ['a']) (filled_plain once)

/-- The characters of a word that a value stands for. -/
theorem takes_alphabet (shape : StarShape v) (taken : Takes v w)
    (alphabet : ∀ c ∈ v, c = '*' ∨ isAlphabetChar c = true) : ∀ c ∈ w, isAlphabetChar c = true := by
  have ordinary : ∀ x : Str, '*' ∉ x → (∀ c ∈ x, c ∈ v) → ∀ c ∈ x, isAlphabetChar c = true := by
    intro x noStar within c inside
    exact (alphabet c (within c inside)).resolve_left fun star => noStar (star ▸ inside)
  rcases shape with noStar | ⟨x, rfl, once⟩ | ⟨x, rfl, once⟩
  · rw [(takes_plain noStar).mp taken]
    exact ordinary v noStar fun c => id
  · obtain ⟨run, each, rfl, _⟩ := takes_front.mp taken
    exact List.forall_mem_append.mpr
      ⟨each, ordinary x once fun c => List.mem_cons_of_mem '*'⟩
  · by_cases empty : x = []
    · rw [empty] at taken
      obtain ⟨run, each, rfl, _⟩ := takes_front.mp taken
      rwa [List.append_nil]
    · obtain ⟨run, each, rfl⟩ := (takes_back once empty).mp taken
      exact List.forall_mem_append.mpr
        ⟨ordinary x once fun c => List.mem_append_left ['*'], each⟩

theorem takes_slash (shape : StarShape v) (taken : Takes v w) (slash : v.head? = some '/') :
    ['/'] <+: w := by
  obtain ⟨rest, rfl⟩ := List.head?_eq_some_iff.mp slash
  rcases shape with noStar | ⟨x, start, _⟩ | ⟨x, last, once⟩
  · rw [(takes_plain noStar).mp taken]
    exact List.prefix_append ['/'] rest
  · exact absurd (List.cons.inj start).1 (by decide)
  · cases x with
    | nil => exact absurd (List.cons.inj last).1 (by decide)
    | cons c x =>
      obtain ⟨rfl, rfl⟩ := List.cons.inj last
      obtain ⟨run, _, rfl⟩ := (takes_back once (List.cons_ne_nil _ _)).mp taken
      exact List.prefix_append ['/'] (x ++ run)

/-- The words of an accepted value are in the domain exactly if it fits. -/
theorem takes_inside (shape : StarShape v) : (∀ w, Takes v w → dim.IsWord w) ↔ dim.Fits v := by
  constructor
  · intro inside
    have word := inside _ (takes_filled shape)
    have alphabet : ∀ c ∈ filled v, isAlphabetChar c = true := by
      cases dim with
      | paths => exact word.2
      | hosts => exact word
    refine ⟨fun c member => ?_, ?_⟩
    · rw [or_iff_not_imp_left]
      intro ordinary
      apply alphabet c
      exact List.mem_map.mpr ⟨c, member, if_neg ordinary⟩
    · rintro rfl
      have slash := word.1
      cases v with
      | nil => simp [filled] at slash
      | cons c rest =>
        rw [List.head?_cons, Option.some.injEq]
        rw [filled, List.map_cons, List.singleton_prefix_cons_iff] at slash
        split at slash
        · exact absurd slash (by decide)
        · exact slash.symm
  · intro fits w taken
    have alphabet := takes_alphabet shape taken fits.alphabet
    cases dim with
    | paths => exact ⟨takes_slash shape taken (fits.slash rfl), alphabet⟩
    | hosts => exact alphabet

theorem mem_subtract {self : D} {is_all_words : Bool} {other : Str} :
    w ∈ (caches.subtract self is_all_words other).1 ↔
      (match caches.found self is_all_words other with
        | some domain => domain.IsWord w
        | none => w ∈ self) ∧ w ∉ (dfaFromRegex other : D) := by
  unfold Caches.subtract
  cases caches.found self is_all_words other with
  | some domain =>
    dsimp only
    rw [ExactSet.mem_sdiff, DfaDimension.mem_domain]
  | none =>
    dsimp only
    cases dimensionOf self with
    | some domain => exact ExactSet.mem_sdiff
    | none => exact ExactSet.mem_sdiff

theorem positiveRegex_ok {texts : Option Str} {values : Option (List Str)}
    (parsed : values.mapM (getValuesListRegex unicode operation dim_name) = .ok texts) :
    texts = values.map regexText ∧
      ∀ vs, values = some vs → getValuesListRegex unicode operation dim_name vs = .ok (regexText vs) := by
  cases values with
  | none => exact ⟨(Except.ok.inj parsed).symm, nofun⟩
  | some vs =>
    obtain ⟨text, read, same⟩ := map_ok.mp parsed
    obtain ⟨_, _, rfl⟩ := getValuesListRegex_ok read
    refine ⟨same.symm, ?_⟩
    rintro _ ⟨⟩
    exact read

theorem mem_valuesDfa {values : Option (List Str)}
    (parsed : ∀ vs, values = some vs →
      getValuesListRegex unicode operation dim_name vs = .ok (regexText vs)) :
    w ∈ (valuesDfa caches dim (values.map regexText)).1 ↔
      Wanted values w ∧ (values = none → dim.IsWord w) := by
  cases values with
  | none =>
    show w ∈ (dim.domain : D) ↔ _
    rw [DfaDimension.mem_domain]
    simp [Wanted]
  | some vs =>
    show w ∈ (dfaFromRegex (regexText vs) : D) ↔ _
    rw [mem_valuesRegex (parsed vs rfl)]
    simp [Wanted]

/-- Where the automaton has the words that it should have. Without negative values, each value fits
the dimension. With them, what they are taken away from has, of the words that they do not take, the
words of the dimension that are wanted. -/
def Confined (caches : Caches D) (dim : DfaDimension) (values negatives : Option (List Str)) : Prop :=
  match negatives with
  | none => ∀ vs, values = some vs → ∀ v ∈ vs, dim.Fits v
  | some ns => ∀ w, ¬ Unwanted negatives w →
      (Minuend caches dim values ns w ↔ dim.IsWord w ∧ Wanted values w)

theorem confined_without {vs : List Str} {dfa : D}
    (accepted : ∀ v ∈ vs, AcceptedValue unicode v)
    (words : ∀ w, w ∈ dfa ↔ ∃ v ∈ vs, Takes v w) :
    (∀ w, w ∈ dfa ↔ dim.IsWord w ∧ Wanted (some vs) w ∧ ¬ Unwanted none w) ↔
      Confined caches dim (some vs) none := by
  have wanted : ∀ w, Wanted (some vs) w ↔ ∃ v ∈ vs, Takes v w := by simp [Wanted]
  have fits : Confined caches dim (some vs) none ↔ ∀ v ∈ vs, dim.Fits v := by simp [Confined]
  rw [fits]
  constructor
  · intro right v inside
    rw [← takes_inside (accepted v inside).shape]
    intro w taken
    exact ((right w).mp ((words w).mpr ⟨v, inside, taken⟩)).1
  · intro fits w
    rw [words, wanted]
    constructor
    · intro ⟨v, inside, taken⟩
      exact ⟨(takes_inside (accepted v inside).shape).mpr (fits v inside) w taken,
        ⟨v, inside, taken⟩, nofun⟩
    · intro ⟨_, taken, _⟩
      exact taken

theorem confined_with {values : Option (List Str)} {ns : List Str} {dfa : D}
    (words : ∀ w, w ∈ dfa ↔ Minuend caches dim values ns w ∧ ¬ Unwanted (some ns) w) :
    (∀ w, w ∈ dfa ↔ dim.IsWord w ∧ Wanted values w ∧ ¬ Unwanted (some ns) w) ↔
      Confined caches dim values (some ns) := by
  apply forall_congr'
  intro w
  rw [words, ← and_assoc, and_congr_left_iff]

/-- Without negative values the automaton has the words that the values stand for. -/
theorem parseValues_words {vs : List Str} {res : Option D} {caches' : Caches D}
    (parsed : parseRegexDimensionValues unicode caches operation dim_name dim (some vs) none =
      .ok (res, caches')) :
    ∃ dfa, res = some dfa ∧ (∀ v ∈ vs, AcceptedValue unicode v) ∧
      ∀ w, w ∈ dfa ↔ ∃ v ∈ vs, Takes v w := by
  unfold parseRegexDimensionValues at parsed
  rw [if_neg (by simp)] at parsed
  obtain ⟨texts, read, parsed⟩ := bind_ok.mp parsed
  obtain ⟨rfl, positives⟩ := positiveRegex_ok read
  obtain ⟨rfl, _⟩ := Prod.mk.inj (Except.ok.inj parsed)
  have read := positives vs rfl
  exact ⟨_, rfl, (getValuesListRegex_ok read).2.1, fun w => mem_valuesRegex read⟩

/-- No earlier call left anything. -/
def noCaches : Caches WordSet := ⟨true, fun _ => none, fun _ _ => none⟩

end Dimensions

end Nca.Parsers
