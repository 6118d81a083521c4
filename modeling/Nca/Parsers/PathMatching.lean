import Nca.Parsers.IngressPaths
import Mathlib.Algebra.Order.BigOperators.Group.List
import Mathlib.Algebra.Order.Group.Nat
import Mathlib.Algebra.GroupWithZero.Nat

/-!
Which path of an Ingress rule takes a request: an exact match is best, else the longest prefix. The
segregation decides the same unless a path contains a dot, a prefix ends with two slashes, or two
prefixes are the same but for a trailing slash.
-/

namespace Nca.Parsers
open CoreDS Lib MinDFA

/-- A path as it is listed in a rule. -/
structure ListedPath (T : Type) where
  path : Str
  pathType : PathType
  target : T

variable {T D : Type} [MinDFA D] {unicode : Char → Bool} {paths : List (ListedPath T)}
  {p q : ListedPath T} {r s : Str}

namespace ListedPath

def parse (unicode : Char → Bool) (p : ListedPath T) : Except ParseError (ParsedPath T) :=
  parsePathString unicode (some p.path) p.pathType p.target

/-- A prefix without its trailing slash; the root becomes empty. -/
def base (p : ListedPath T) : Str := withoutTrailingSlash p.path

/-- A prefix is matched by itself and by what extends it after a slash. -/
def Matches (p : ListedPath T) (r : Str) : Prop :=
  if p.pathType = .Exact then r = p.path else r = p.base ∨ p.base ++ ['/'] <+: r

/-- No other path matches the request better. -/
def BestMatch (paths : List (ListedPath T)) (p : ListedPath T) (r : Str) : Prop :=
  p.Matches r ∧ (p.pathType = .Exact ∨
    ∀ q ∈ paths, q.Matches r → q.pathType ≠ .Exact ∧ q.base.length ≤ p.base.length)

/-- The characters of the path are those of requests. -/
def InAlphabet (p : ListedPath T) : Prop := ∀ c ∈ p.path, isAlphabetChar c = true

end ListedPath

/-- Paths that the segregation treats as the matching demands. -/
structure Segregable (paths : List (ListedPath T)) : Prop where
  no_dot : ∀ p ∈ paths, p.InAlphabet → '.' ∉ p.path
  no_slashes : ∀ p ∈ paths, p.InAlphabet → p.pathType ≠ .Exact → ¬ ['/', '/'] <:+ p.path
  distinct : ∀ (i j : Nat) (p q : ListedPath T), paths[i]? = some p → paths[j]? = some q → i ≠ j →
    p.pathType ≠ .Exact → q.pathType ≠ .Exact → p.InAlphabet → p.base ≠ q.base

section Strings

theorem withoutTrailingSlash_cases (s : Str) :
    (s = withoutTrailingSlash s ∧ ¬ ['/'] <:+ s) ∨ s = withoutTrailingSlash s ++ ['/'] := by
  unfold withoutTrailingSlash
  by_cases last : s.getLast? = some '/'
  · rw [if_pos last]
    exact Or.inr (List.dropLast_append_getLast? '/' last).symm
  · rw [if_neg last]
    refine Or.inl ⟨rfl, ?_⟩
    rintro ⟨t, rfl⟩
    exact last (by simp)

theorem withoutTrailingSlash_append (s : Str) : withoutTrailingSlash (s ++ ['/']) = s := by
  simp [withoutTrailingSlash]

theorem withoutTrailingSlash_initial (s : Str) : withoutTrailingSlash s <+: s := by
  rcases withoutTrailingSlash_cases s with ⟨same, _⟩ | slash
  · rw [← same]
  · exact ⟨['/'], slash.symm⟩

theorem withoutTrailingSlash_length (s : Str) :
    (withoutTrailingSlash s).length ≤ s.length ∧ s.length ≤ (withoutTrailingSlash s).length + 1 := by
  rcases withoutTrailingSlash_cases s with ⟨same, _⟩ | slash
  · rw [← same]
    omega
  · have length := congrArg List.length slash
    rw [List.length_append, List.length_singleton] at length
    omega

theorem reads_length {pattern word : Str} (reads : Regex.Reads pattern word) :
    pattern.length = word.length := List.Forall₂.length_eq reads

theorem reads_self (pattern : Str) : Regex.Reads pattern pattern := by
  induction pattern with
  | nil => exact .nil
  | cons c rest ih => exact .cons (Or.inr rfl) ih

theorem reads_eq {pattern word : Str} (no_dot : '.' ∉ pattern) (reads : Regex.Reads pattern word) :
    pattern = word := by
  induction reads with
  | nil => rfl
  | cons matched _ ih =>
    rw [List.mem_cons, not_or] at no_dot
    rw [matched.resolve_left (Ne.symm no_dot.1), ih no_dot.2]

/-- What is read where the pattern has a character other than a dot is this character. -/
theorem reads_mem {pattern word : Str} {c : Char} (reads : Regex.Reads pattern word)
    (inside : c ∈ pattern) (ordinary : c ≠ '.') : c ∈ word := by
  induction reads with
  | nil => cases inside
  | cons matched _ ih =>
    rcases List.mem_cons.mp inside with rfl | inside
    · rw [matched.resolve_left ordinary]
      exact List.mem_cons_self
    · exact List.mem_cons_of_mem _ (ih inside)

end Strings

section Automata

namespace ListedPath

/-- The path as `parse_ingress_path` returns it. -/
def normal (p : ListedPath T) : ParsedPath T :=
  if p.pathType = .Exact then ⟨p.path, .Exact, p.target⟩ else ⟨p.base, .Prefix, p.target⟩

/-- What the validation of the path checks. -/
structure Valid (unicode : Char → Bool) (p : ListedPath T) : Prop where
  slash : ['/'] <+: p.path
  plain : ∀ c ∈ p.path, c = '.' ∨ isReWord unicode c = true ∨ c = '/' ∨ c = '-'

theorem validate_ok : validatePathValue unicode p.path = .ok () ↔ p.Valid unicode := by
  have slash : p.path.head? = some '/' ↔ ['/'] <+: p.path := by
    cases p.path with
    | nil => simp
    | cons c rest => simp [eq_comm]
  have plain : (p.path.all fun c => c == '.' || isReWord unicode c || c == '/' || c == '-') = true ↔
      ∀ c ∈ p.path, c = '.' ∨ isReWord unicode c = true ∨ c = '/' ∨ c = '-' := by
    simp [or_assoc]
  unfold validatePathValue
  by_cases first : p.path.head? = some '/'
  · by_cases others : (p.path.all fun c =>
        c == '.' || isReWord unicode c || c == '/' || c == '-') = true
    · simp only [first, others]
      exact iff_of_true rfl ⟨slash.mp first, plain.mp others⟩
    · rw [Bool.not_eq_true] at others
      simp only [first, others]
      apply iff_of_false
      · intro ended
        cases ended
      · intro valid
        simp [plain.mpr valid.plain] at others
  · simp only [ne_eq, first, not_false_eq_true, if_true]
    apply iff_of_false
    · intro ended
      cases ended
    · intro valid
      exact first (slash.mpr valid.slash)

theorem parse_eq (c : Char) (rest : Str) (path : p.path = c :: rest) :
    p.parse unicode = (validatePathValue unicode p.path).map fun _ => p.normal := by
  obtain ⟨_, pathType, target⟩ := p
  obtain rfl := path
  unfold parse parsePathString
  cases pathType with
  | Exact | Prefix | ImplementationSpecific =>
    dsimp only
    cases validatePathValue unicode (c :: rest) <;> rfl

theorem parse_ok {parsed : ParsedPath T} :
    p.parse unicode = .ok parsed ↔ p.Valid unicode ∧ parsed = p.normal := by
  cases path : p.path with
  | nil =>
    refine iff_of_false ?_ fun ⟨valid, _⟩ => ?_
    · unfold parse parsePathString
      rw [path]
      exact nofun
    · have slash := valid.slash
      simp [path] at slash
  | cons c rest =>
    rw [parse_eq c rest path, ← validate_ok]
    cases validatePathValue unicode p.path with
    | error e => simp [Except.map]
    | ok u => simp [Except.map, eq_comm]

end ListedPath

/-- The string that the segregation compares. -/
def pathString (p : ListedPath T) : Str :=
  if p.pathType = .Exact then p.path else if p.base = [] then ['/'] else p.base

def automaton (p : ListedPath T) : D :=
  if p.pathType = .Exact then dfaFromRegex p.path else getPathPrefixDfa (pathString p)

theorem makePathDfa_normal : (makePathDfa p.normal : PathDfa D T) =
    ⟨⟨pathString p, p.normal.path_type, p.target⟩, automaton p⟩ := by
  unfold makePathDfa ListedPath.normal automaton pathString
  by_cases exactly : p.pathType = .Exact
  · simp [exactly]
  · by_cases root : p.base = [] <;> simp [exactly, root]

theorem read_extension (group : Regex.Group) :
    ("(/".toList ++ (default_alphabet_regex ++ ")?".toList)).foldl Regex.Reader.step
      ⟨[], group, .text⟩ = ⟨[], group.push (.alt .epsilon (.seq (.seq .epsilon (Regex.plain '/'))
        (.star (.chars isAlphabetChar)))), .text⟩ := by
  have opened : "(/".toList.foldl Regex.Reader.step ⟨[], group, .text⟩ =
      ⟨[group], Regex.Group.push {} (Regex.plain '/'), .text⟩ := rfl
  rw [List.foldl_append, opened, List.foldl_append, read_alphabet]
  rfl

/-- Nothing, or a slash and characters of requests. -/
def Extends (v : Str) : Prop := v = [] ∨ (['/'] <+: v ∧ ∀ c ∈ v, isAlphabetChar c = true)

theorem mem_extension {v : Str} : v ∈ (Regex.alt .epsilon (.seq (.seq .epsilon (Regex.plain '/'))
    (.star (.chars isAlphabetChar)))).lang ↔ Extends v := by
  simp only [Regex.mem_alt, Regex.mem_epsilon, Regex.mem_seq, Regex.mem_plain,
    Regex.mem_star_chars, Extends]
  refine or_congr_right ⟨?_, ?_⟩
  · rintro ⟨_, ⟨_, rfl, _, ⟨d, matched, rfl⟩, rfl⟩, t, each, rfl⟩
    obtain rfl := matched.resolve_left (by decide)
    refine ⟨List.prefix_append ['/'] t, fun c inside => ?_⟩
    rcases List.mem_cons.mp inside with rfl | inside
    · decide
    · exact each c inside
  · rintro ⟨⟨t, rfl⟩, each⟩
    exact ⟨['/'], ⟨[], rfl, ['/'], ⟨'/', Or.inr rfl, rfl⟩, rfl⟩, t,
      fun c inside => each c (List.mem_cons_of_mem _ inside), rfl⟩

theorem plain_of_valid {c : Char} (valid : c = '.' ∨ isReWord unicode c = true ∨ c = '/' ∨ c = '-') :
    Regex.Plain c := by
  have excluded : ∀ d ∈ ['\\', '[', '(', ')', '|', '*', '+', '?'],
      ¬ (d = '.' ∨ isReWord unicode d = true ∨ d = '/' ∨ d = '-') := by
    simp [isReWord, isWordChar]
  exact fun operator => excluded c operator valid

variable (valid : p.Valid unicode)
include valid

theorem mem_automaton_reads (exactly : p.pathType = .Exact) :
    r ∈ (automaton p : D) ↔ Regex.Reads p.path r := by
  rw [automaton, if_pos exactly]
  exact mem_dfaFromPlain fun c inside => plain_of_valid (valid.plain c inside)

theorem base_cases : (p.path = p.base ∧ ¬ ['/'] <:+ p.path ∧ p.base ≠ []) ∨
    p.path = p.base ++ ['/'] := by
  refine (withoutTrailingSlash_cases p.path).imp_left fun ⟨same, noSlash⟩ => ⟨same, noSlash, ?_⟩
  intro empty
  have slash := valid.slash
  rw [same.trans empty] at slash
  simp at slash

theorem mem_prefixAutomaton (notExact : p.pathType ≠ .Exact) :
    r ∈ (automaton p : D) ↔ if pathString p = ['/'] then IsPath r else
      ∃ u v, Regex.Reads (withoutTrailingSlash (pathString p)) u ∧ Extends v ∧ r = u ++ v := by
  rw [automaton, if_neg notExact, getPathPrefixDfa]
  by_cases root : pathString p = ['/']
  · rw [if_pos root, if_pos root]
    exact mem_pathDomain
  · have ordinary : ∀ c ∈ withoutTrailingSlash (pathString p), Regex.Plain c := by
      intro c inside
      have inside := (withoutTrailingSlash_initial _).subset inside
      rw [pathString, if_neg notExact] at inside
      split at inside
      · rw [List.mem_singleton.mp inside]
        exact @plain_of_valid unicode _ (Or.inr (Or.inr (Or.inl rfl)))
      · exact plain_of_valid (valid.plain c ((withoutTrailingSlash_initial p.path).subset inside))
    rw [if_neg root, if_neg root, mem_dfaFromRegex, Regex.mem_parse_append ordinary read_extension]
    simp only [mem_extension]

theorem mem_automaton_extends (notExact : p.pathType ≠ .Exact) (path : IsPath r) :
    r ∈ (automaton p : D) ↔ pathString p = ['/'] ∨
      ∃ u v, Regex.Reads (withoutTrailingSlash (pathString p)) u ∧ Extends v ∧ r = u ++ v := by
  rw [mem_prefixAutomaton valid notExact]
  by_cases root : pathString p = ['/']
  · simp [root, path]
  · simp [root]

/-- A path that takes a request consists of characters of requests. -/
theorem inAlphabet_of_mem (path : IsPath r) (member : r ∈ (automaton p : D)) : p.InAlphabet := by
  have transfer : ∀ {pattern u : Str}, Regex.Reads pattern u → (∀ c ∈ u, c ∈ r) →
      ∀ c ∈ pattern, isAlphabetChar c = true := by
    intro pattern u reads within c inside
    by_cases dot : c = '.'
    · rw [dot]
      decide
    · exact path.2 c (within c (reads_mem reads inside dot))
  by_cases exactly : p.pathType = .Exact
  · exact transfer ((mem_automaton_reads valid exactly).mp member) fun _ => id
  · have slash : isAlphabetChar '/' = true := by decide
    have base : ∀ c ∈ p.base, isAlphabetChar c = true := by
      intro c inside
      have some : p.base ≠ [] := fun empty => by simp [empty] at inside
      have string : pathString p = p.base := by rw [pathString, if_neg exactly, if_neg some]
      rw [mem_automaton_extends valid exactly path, string] at member
      rcases member with root | ⟨u, v, reads, _, rfl⟩
      · rw [root, List.mem_singleton] at inside
        rw [inside]
        exact slash
      · rcases withoutTrailingSlash_cases p.base with ⟨same, _⟩ | same
        · rw [same] at inside
          exact transfer reads (fun c => List.mem_append_left v) c inside
        · rw [same, List.mem_append, List.mem_singleton] at inside
          rcases inside with inside | rfl
          · exact transfer reads (fun c => List.mem_append_left v) c inside
          · exact slash
    intro c inside
    rcases base_cases valid with ⟨same, _⟩ | same
    · exact base c (same ▸ inside)
    · rw [same, List.mem_append, List.mem_singleton] at inside
      rcases inside with inside | rfl
      · exact base c inside
      · exact slash

theorem mem_of_matches (path : IsPath r) (matched : p.Matches r) : r ∈ (automaton p : D) := by
  by_cases exactly : p.pathType = .Exact
  · rw [ListedPath.Matches, if_pos exactly] at matched
    rw [mem_automaton_reads valid exactly, matched]
    exact reads_self p.path
  · rw [ListedPath.Matches, if_neg exactly] at matched
    rw [mem_automaton_extends valid exactly path]
    by_cases empty : p.base = []
    · exact Or.inl (by rw [pathString, if_neg exactly, if_pos empty])
    · refine Or.inr ?_
      rw [pathString, if_neg exactly, if_neg empty]
      -- what is left of the request begins with a slash if anything is left
      obtain ⟨v, rest, start⟩ : ∃ v, r = withoutTrailingSlash p.base ++ v ∧
          (v = [] ∨ ['/'] <+: v) := by
        rcases withoutTrailingSlash_cases p.base with ⟨same, _⟩ | same
        · rcases matched with rfl | ⟨t, rfl⟩
          · exact ⟨[], by rw [← same, List.append_nil], Or.inl rfl⟩
          · exact ⟨['/'] ++ t, by rw [← same, List.append_assoc], Or.inr (List.prefix_append _ t)⟩
        · rcases matched with rfl | ⟨t, rfl⟩
          · exact ⟨['/'], same, Or.inr (List.prefix_refl _)⟩
          · refine ⟨['/'] ++ (['/'] ++ t), ?_, Or.inr (List.prefix_append _ _)⟩
            rw [← List.append_assoc, ← same, List.append_assoc]
      refine ⟨_, v, reads_self _, start.imp_right fun start => ⟨start, ?_⟩, rest⟩
      exact fun c inside => path.2 c (rest ▸ List.mem_append_right _ inside)

/-- Without dots and doubled slashes the automata have no other requests. -/
theorem matches_of_mem (path : IsPath r) (no_dot : '.' ∉ p.path)
    (no_slashes : p.pathType ≠ .Exact → ¬ ['/', '/'] <:+ p.path)
    (member : r ∈ (automaton p : D)) : p.Matches r := by
  by_cases exactly : p.pathType = .Exact
  · rw [mem_automaton_reads valid exactly] at member
    rw [ListedPath.Matches, if_pos exactly]
    exact (reads_eq no_dot member).symm
  · rw [mem_automaton_extends valid exactly path] at member
    rw [ListedPath.Matches, if_neg exactly]
    by_cases empty : p.base = []
    · rw [empty]
      exact Or.inr path.1
    · have noSlash : ¬ ['/'] <:+ p.base := by
        rcases base_cases valid with ⟨same, noSlash, _⟩ | same
        · exact same ▸ noSlash
        · rintro ⟨u, base⟩
          exact no_slashes exactly ⟨u, by rw [same, ← base, List.append_assoc]; rfl⟩
      have string : pathString p = p.base := by rw [pathString, if_neg exactly, if_neg empty]
      have whole : withoutTrailingSlash p.base = p.base := by
        rcases withoutTrailingSlash_cases p.base with ⟨same, _⟩ | same
        · exact same.symm
        · exact (noSlash ⟨_, same.symm⟩).elim
      rw [string, whole] at member
      rcases member with root | ⟨u, v, reads, extension, rfl⟩
      · exact (noSlash (by rw [root])).elim
      · have same : p.base = u := reads_eq
          (fun dot => no_dot ((withoutTrailingSlash_initial p.path).subset dot)) reads
        rw [← same]
        rcases extension with rfl | ⟨⟨t, rfl⟩, _⟩
        · exact Or.inl (List.append_nil _)
        · exact Or.inr ⟨t, List.append_assoc _ _ _⟩

theorem length_of_mem (path : IsPath r) (member : r ∈ (automaton p : D)) :
    (p.pathType = .Exact → (pathString p).length = r.length) ∧
      (pathString p = ['/'] ∨ (pathString p).length ≤ r.length + 1) := by
  by_cases exactly : p.pathType = .Exact
  · have same : (pathString p).length = r.length := by
      rw [pathString, if_pos exactly]
      exact reads_length ((mem_automaton_reads valid exactly).mp member)
    exact ⟨fun _ => same, Or.inr (by omega)⟩
  · refine ⟨fun same => (exactly same).elim, ?_⟩
    refine ((mem_automaton_extends valid exactly path).mp member).imp_right ?_
    rintro ⟨u, v, reads, _, rfl⟩
    have length := reads_length reads
    have stripped := withoutTrailingSlash_length (pathString p)
    rw [List.length_append]
    omega

end Automata

section Segregation

theorem mem_subtractLonger {i : Nat} {others : List (PathDfa D T × Nat)} {path_dfa : D} :
    r ∈ others.foldl (subtractLonger s i) path_dfa ↔ r ∈ path_dfa ∧
      ∀ other ∈ others, i ≠ other.2 → s <+: other.1.path_string → r ∉ other.1.path_dfa := by
  induction others generalizing path_dfa with
  | nil => simp
  | cons other rest ih =>
    rw [List.foldl_cons, ih, List.forall_mem_cons, ← and_assoc]
    refine and_congr_left' ?_
    unfold subtractLonger
    by_cases same : i = other.2
    · simp [same]
    · by_cases extends_ : s <+: other.1.path_string
      · simp [same, extends_, List.isPrefixOf_iff_prefix]
      · simp [same, extends_, List.isPrefixOf_iff_prefix]

/-- What the segregation leaves to the path at index `i`. -/
def Taken (D : Type) [MinDFA D] (paths : List (ListedPath T)) (i : Nat) (p : ListedPath T)
    (r : Str) : Prop :=
  r ∈ (automaton p : D) ∧ (p.pathType ≠ .Exact → ∀ (j : Nat) (q : ListedPath T),
    paths[j]? = some q → i ≠ j → pathString p <+: pathString q → r ∉ (automaton q : D))

theorem segregated_length (parsed_paths : List (ParsedPath T)) :
    (segregateLongestPathsAndMakeDfa parsed_paths : List (PathDfa D T)).length =
      parsed_paths.length := by
  simp [segregateLongestPathsAndMakeDfa]

theorem segregated_get {i : Nat} (listed : paths[i]? = some p) :
    ∃ res, (segregateLongestPathsAndMakeDfa (paths.map ListedPath.normal) :
        List (PathDfa D T))[i]? = some res ∧
      res.target = p.target ∧ ∀ r, r ∈ res.path_dfa ↔ Taken D paths i p r := by
  have others : ∀ (other : PathDfa D T × Nat),
      other ∈ ((paths.map ListedPath.normal).map makePathDfa).zipIdx ↔
      ∃ q, paths[other.2]? = some q ∧ makePathDfa q.normal = other.1 := by
    intro other
    rw [List.mem_zipIdx_iff_getElem?]
    simp
  unfold segregateLongestPathsAndMakeDfa
  simp only [List.getElem?_map, List.getElem?_zipIdx, listed, Option.map_some, Nat.zero_add]
  refine ⟨_, rfl, ?_⟩
  rw [makePathDfa_normal]
  by_cases exactly : p.pathType = .Exact
  · have kind : p.normal.path_type = .Exact := by rw [ListedPath.normal, if_pos exactly]
    rw [if_pos kind]
    exact ⟨rfl, fun r => (and_iff_left fun other => (other exactly).elim).symm⟩
  · have kind : p.normal.path_type ≠ .Exact := by
      rw [ListedPath.normal, if_neg exactly]
      exact nofun
    rw [if_neg kind]
    refine ⟨rfl, fun r => ?_⟩
    show r ∈ List.foldl _ _ _ ↔ _
    rw [mem_subtractLonger, Taken]
    refine and_congr_right fun _ => ?_
    constructor
    · intro free _ j q among differ extends_
      have outside := free (makePathDfa q.normal, j) ((others _).mpr ⟨q, among, rfl⟩) differ
      rw [makePathDfa_normal] at outside
      exact outside extends_
    · intro free other among differ extends_
      obtain ⟨q, among, same⟩ := (others other).mp among
      rw [← same, makePathDfa_normal] at extends_ ⊢
      exact free exactly other.2 q among differ extends_

end Segregation

section Matching

/-- The segregation leaves to each path the requests that it matches best. -/
def MatchesBest (D : Type) [MinDFA D] (paths : List (ListedPath T)) : Prop :=
  ∀ r, IsPath r → ∀ (i : Nat) (p : ListedPath T), paths[i]? = some p →
    (Taken D paths i p r ↔ p.BestMatch paths r)

theorem base_slash (valid : p.Valid unicode) (ends : ['/'] <:+ p.base) : ['/', '/'] <:+ p.path := by
  obtain ⟨u, base⟩ := ends
  rcases base_cases valid with ⟨same, noSlash, _⟩ | same
  · exact (noSlash ⟨u, base.trans same.symm⟩).elim
  · exact ⟨u, by rw [same, ← base, List.append_assoc]; rfl⟩

theorem string_initial (path : IsPath r) (matched : p.Matches r) : pathString p <+: r := by
  unfold ListedPath.Matches at matched
  unfold pathString
  by_cases exactly : p.pathType = .Exact
  · rw [if_pos exactly] at matched ⊢
    rw [matched]
  · rw [if_neg exactly] at matched ⊢
    split
    · exact path.1
    · rcases matched with rfl | extends_
      · exact List.prefix_refl _
      · exact (List.prefix_append p.base ['/']).trans extends_

theorem base_initial (prefixType : p.pathType ≠ .Exact) (matched : p.Matches r) : p.base <+: r := by
  rw [ListedPath.Matches, if_neg prefixType] at matched
  rcases matched with rfl | extends_
  · exact List.prefix_refl _
  · exact (List.prefix_append p.base ['/']).trans extends_

theorem base_path (valid : p.Valid unicode) : p.base = [] ∨ ['/'] <+: p.base := by
  obtain ⟨t, path⟩ := valid.slash
  obtain ⟨v, same⟩ := withoutTrailingSlash_initial p.path
  cases base : p.base with
  | nil => exact Or.inl rfl
  | cons c u =>
    refine Or.inr ?_
    rw [show withoutTrailingSlash p.path = c :: u from base, ← path] at same
    rw [(List.cons.inj same).1]
    exact List.prefix_append ['/'] u

theorem string_slash (valid : p.Valid unicode) : ['/'] <+: pathString p := by
  unfold pathString
  by_cases exactly : p.pathType = .Exact
  · rw [if_pos exactly]
    exact valid.slash
  · rw [if_neg exactly]
    split
    · exact List.prefix_refl _
    · exact (base_path valid).resolve_left ‹_›

/-- Where the conditions hold the segregation treats the paths as the matching demands. -/
theorem matchesBest_of_segregable (valid : ∀ p ∈ paths, p.Valid unicode)
    (segregable : Segregable paths) : MatchesBest D paths := by
  intro r path i p listed
  have agree : ∀ q ∈ paths, (r ∈ (automaton q : D) ↔ q.Matches r) := by
    intro q member
    refine ⟨fun inside => ?_, mem_of_matches (valid q member) path⟩
    have alphabet := inAlphabet_of_mem (valid q member) path inside
    exact matches_of_mem (valid q member) path (segregable.no_dot q member alphabet)
      (segregable.no_slashes q member alphabet) inside
  have member := List.mem_of_getElem? listed
  unfold Taken ListedPath.BestMatch
  rw [agree p member]
  refine and_congr_right fun matched => ?_
  by_cases exactly : p.pathType = .Exact
  · simp [exactly]
  have alphabet : p.InAlphabet :=
    inAlphabet_of_mem (valid p member) path ((agree p member).mpr matched)
  simp only [exactly, not_false_eq_true, true_implies, false_or, ne_eq]
  constructor
  · intro free q among matched'
    obtain ⟨j, listed'⟩ := List.mem_iff_getElem?.mp among
    by_cases same : i = j
    · subst same
      obtain rfl : p = q := Option.some.inj (listed.symm.trans listed')
      exact ⟨exactly, Nat.le_refl _⟩
    have outside : pathString p <+: pathString q → False := fun extends_ =>
      free j q listed' same extends_ ((agree q among).mpr matched')
    have exactly' : q.pathType ≠ .Exact := by
      intro exactly'
      apply outside
      have whole : pathString q = r := by
        rw [ListedPath.Matches, if_pos exactly'] at matched'
        rw [pathString, if_pos exactly', matched']
      rw [whole]
      exact string_initial path matched
    refine ⟨exactly', ?_⟩
    by_contra longer
    apply outside
    have shorter : p.base <+: q.base := List.prefix_of_prefix_length_le
      (base_initial exactly matched) (base_initial exactly' matched') (by omega)
    by_cases root : p.base = []
    · rw [pathString, if_neg exactly, if_pos root]
      exact string_slash (valid q among)
    · have some : q.base ≠ [] := fun empty => longer (by simp [empty])
      rw [pathString, if_neg exactly, if_neg root, pathString, if_neg exactly', if_neg some]
      exact shorter
  · intro best j q listed' differ extends_ inside
    have among := List.mem_of_getElem? listed'
    obtain ⟨exactly', shorter⟩ := best q among ((agree q among).mp inside)
    refine segregable.distinct i j p q listed listed' differ exactly exactly' alphabet ?_
    rw [pathString, if_neg exactly, pathString, if_neg exactly'] at extends_
    by_cases root : p.base = []
    · rw [root, List.length_nil, Nat.le_zero, List.length_eq_zero_iff] at shorter
      rw [root, shorter]
    · rw [if_neg root] at extends_
      split at extends_
      · -- a prefix of the root's string is it, but then the path ends with two slashes
        obtain ⟨t, whole, nothing⟩ := (List.prefix_cons_iff.mp extends_).resolve_left root
        rw [List.prefix_nil.mp nothing] at whole
        have slashes := base_slash (valid p member) (by rw [whole])
        exact (segregable.no_slashes p member alphabet exactly slashes).elim
      · exact extends_.eq_of_length_le shorter

section Requests

/-- The word that a pattern with dots is read as too. -/
def undotted (s : Str) : Str := s.map fun c => if c = '.' then 'a' else c

theorem reads_undotted (s : Str) : Regex.Reads s (undotted s) := by
  induction s with
  | nil => exact .nil
  | cons c rest ih =>
    apply List.Forall₂.cons _ ih
    by_cases dot : c = '.'
    · exact Or.inl dot
    · exact Or.inr (if_neg dot).symm

theorem dot_undotted (s : Str) : '.' ∉ undotted s := by
  intro inside
  obtain ⟨c, _, same⟩ := List.mem_map.mp inside
  split at same
  · simp at same
  · exact absurd same ‹_›

theorem path_undotted (slash : ['/'] <+: s) (alphabet : ∀ c ∈ s, isAlphabetChar c = true) :
    IsPath (undotted s) := by
  obtain ⟨t, rfl⟩ := slash
  refine ⟨⟨undotted t, rfl⟩, fun c inside => ?_⟩
  obtain ⟨d, among, rfl⟩ := List.mem_map.mp inside
  split
  · decide
  · exact alphabet d among

/-- More characters than any of the paths has. -/
def fill (paths : List (ListedPath T)) : Str :=
  List.replicate ((paths.map (·.path.length)).sum + 1) 'a'

theorem length_fill (member : p ∈ paths) : p.path.length < (fill paths).length := by
  have bound : p.path.length ≤ (paths.map (·.path.length)).sum :=
    List.le_sum_of_mem (List.mem_map.mpr ⟨p, member, rfl⟩)
  rw [fill, List.length_replicate]
  omega

theorem base_length (p : ListedPath T) : p.base.length ≤ p.path.length :=
  (withoutTrailingSlash_length p.path).1

/-- A request below a prefix that no other path is about. -/
def below (paths : List (ListedPath T)) (s : Str) : Str := s ++ ['/'] ++ fill paths

theorem slash_below {k : Nat} (slash : (below paths s)[k]? = some '/') : k ≤ s.length := by
  by_contra later
  rw [below, List.getElem?_append_right (by simp; omega)] at slash
  have inside := List.mem_of_getElem? slash
  rw [fill, List.mem_replicate] at inside
  exact absurd inside.2 (by decide)

/-- What matches a request below a prefix is not longer than the prefix. -/
theorem matches_below (member : q ∈ paths) (matched : q.Matches (below paths s)) :
    q.pathType ≠ .Exact ∧ q.base.length ≤ s.length := by
  have long : q.path.length < (below paths s).length := by
    have bound := length_fill member
    rw [below, List.length_append]
    omega
  unfold ListedPath.Matches at matched
  by_cases exactly : q.pathType = .Exact
  · rw [if_pos exactly] at matched
    rw [matched] at long
    omega
  · rw [if_neg exactly] at matched
    refine ⟨exactly, ?_⟩
    rcases matched with same | ⟨t, same⟩
    · have short := base_length q
      rw [same] at long
      omega
    · have slash : (below paths s)[q.base.length]? = some '/' := by
        rw [← same, List.append_assoc, List.getElem?_append_right (Nat.le_refl _)]
        simp
      exact slash_below slash

theorem best_below (prefixType : p.pathType ≠ .Exact) :
    p.BestMatch paths (below paths p.base) := by
  refine ⟨?_, Or.inr fun q => matches_below⟩
  rw [ListedPath.Matches, if_neg prefixType]
  exact Or.inr (List.prefix_append _ _)

theorem path_below (valid : p.Valid unicode) (alphabet : p.InAlphabet) :
    IsPath (below paths p.base) := by
  constructor
  · rcases base_path valid with empty | slash
    · rw [below, empty]
      exact ⟨_, rfl⟩
    · exact (slash.trans (List.prefix_append _ _)).trans (List.prefix_append _ _)
  · intro c inside
    rw [below, List.mem_append, List.mem_append, List.mem_singleton, fill, List.mem_replicate]
      at inside
    rcases inside with (inside | rfl) | ⟨_, rfl⟩
    · exact alphabet c ((withoutTrailingSlash_initial p.path).subset inside)
    · decide
    · decide

end Requests

theorem string_length (valid : p.Valid unicode) : (pathString p).length ≤ p.path.length := by
  have positive := valid.slash.length_le
  have shorter := base_length p
  unfold pathString
  split
  · exact Nat.le_refl _
  · split
    · exact positive
    · exact shorter

/-- Only a prefix with the string of the root takes a request below the root that no path is
about. -/
theorem root_of_below (valid : p.Valid unicode) (member : p ∈ paths) (path : IsPath (below paths []))
    (inside : below paths [] ∈ (automaton p : D)) :
    p.pathType ≠ .Exact ∧ pathString p = ['/'] := by
  have short := string_length valid
  have fresh := length_fill member
  have long : (fill paths).length < (below paths []).length := by simp [below]
  have prefixType : p.pathType ≠ .Exact := by
    intro exactly
    have length := (length_of_mem valid path inside).1 exactly
    omega
  refine ⟨prefixType, ?_⟩
  rcases (mem_automaton_extends valid prefixType path).mp inside with root | ⟨u, v, reads, tail, whole⟩
  · exact root
  · have stripped := withoutTrailingSlash_length (pathString p)
    have length := reads_length reads
    have start : u.length ≤ ([] : Str).length := by
      rcases tail with rfl | ⟨⟨t, rfl⟩, _⟩
      · rw [List.append_nil] at whole
        rw [whole] at long
        omega
      · have slash : (below paths [])[u.length]? = some '/' := by
          rw [whole, List.getElem?_append_right (Nat.le_refl _)]
          simp
        exact slash_below slash
    have single : (pathString p).length ≤ ['/'].length := by
      rw [List.length_nil] at start
      rw [List.length_singleton]
      omega
    exact ((string_slash valid).eq_of_length_le single).symm

section Converse

variable (best : MatchesBest D paths) (valid : ∀ p ∈ paths, p.Valid unicode)
include best valid

/-- An exact path has no dot: its automaton takes a request with another character there. -/
theorem exact_no_dot (member : p ∈ paths) (alphabet : p.InAlphabet)
    (exactly : p.pathType = .Exact) : '.' ∉ p.path := by
  intro dot
  obtain ⟨i, listed⟩ := List.mem_iff_getElem?.mp member
  have taken : Taken D paths i p (undotted p.path) :=
    ⟨(mem_automaton_reads (valid p member) exactly).mpr (reads_undotted p.path),
      fun prefixType => (prefixType exactly).elim⟩
  have path := path_undotted (valid p member).slash alphabet
  have matched := ((best _ path i p listed).mp taken).1
  rw [ListedPath.Matches, if_pos exactly] at matched
  rw [← matched] at dot
  exact dot_undotted p.path dot

/-- Prefixes with one string leave each other nothing. -/
theorem string_distinct {i j : Nat} (listed : paths[i]? = some p) (listed' : paths[j]? = some q)
    (differ : i ≠ j) (prefixType : p.pathType ≠ .Exact) (prefixType' : q.pathType ≠ .Exact)
    (alphabet : p.InAlphabet) : pathString p ≠ pathString q := by
  intro same
  have member := List.mem_of_getElem? listed
  have member' := List.mem_of_getElem? listed'
  have path : IsPath (below paths p.base) := path_below (valid p member) alphabet
  have taken := (best _ path i p listed).mpr (best_below prefixType)
  have shared : (automaton q : D) = automaton p := by
    rw [automaton, if_neg prefixType', automaton, if_neg prefixType, same]
  exact taken.2 prefixType j q listed' differ (by rw [same]) (shared ▸ taken.1)

/-- A prefix does not end with two slashes: it would take a request that does not have them. -/
theorem prefix_no_slashes {i : Nat} (listed : paths[i]? = some p) (prefixType : p.pathType ≠ .Exact)
    (alphabet : p.InAlphabet) : ¬ ['/', '/'] <:+ p.path := by
  rintro ⟨u, slashes⟩
  have member := List.mem_of_getElem? listed
  have base : p.base = u ++ ['/'] := by
    rw [ListedPath.base, ← slashes, show u ++ ['/', '/'] = (u ++ ['/']) ++ ['/'] by simp]
    exact withoutTrailingSlash_append _
  have string : pathString p = u ++ ['/'] := by
    rw [pathString, if_neg prefixType, if_neg (by simp [base]), base]
  -- a request that the automaton takes, but that the path does not match
  obtain ⟨r, path, inside, unmatched, short⟩ : ∃ r, IsPath r ∧ r ∈ (automaton p : D) ∧
      ¬ p.Matches r ∧ ∀ q ∈ paths, r ∈ (automaton q : D) → pathString p <+: pathString q →
        q.pathType ≠ .Exact ∧ pathString p = pathString q := by
    by_cases root : u = []
    · subst root
      have path : IsPath (below paths []) := by
        refine ⟨⟨_, rfl⟩, fun c inside => ?_⟩
        rw [below, List.nil_append, List.mem_append, List.mem_singleton, fill,
          List.mem_replicate] at inside
        rcases inside with rfl | ⟨_, rfl⟩ <;> decide
      refine ⟨_, path, ?_, ?_, fun q among inside _ => ?_⟩
      · exact (mem_automaton_extends (valid p member) prefixType path).mpr (Or.inl string)
      · intro matched
        have short := (matches_below member matched).2
        rw [base] at short
        exact absurd short (by decide)
      · rw [string]
        exact (root_of_below (valid q among) among path inside).imp_right Eq.symm
    · have start : ['/'] <+: u := by
        obtain ⟨c, v, rfl⟩ := List.exists_cons_of_ne_nil root
        obtain ⟨t, same⟩ := (valid p member).slash
        rw [← slashes] at same
        rw [← (List.cons.inj same).1]
        exact List.prefix_append ['/'] v
      have path : IsPath u :=
        ⟨start, fun c inside => alphabet c (slashes ▸ List.mem_append_left _ inside)⟩
      refine ⟨u, path, ?_, ?_, fun q among inside extends_ => ?_⟩
      · rw [mem_automaton_extends (valid p member) prefixType path, string,
          withoutTrailingSlash_append]
        exact Or.inr ⟨u, [], reads_self u, Or.inl rfl, (List.append_nil u).symm⟩
      · intro matched
        have short := (base_initial prefixType matched).length_le
        rw [base, List.length_append, List.length_singleton] at short
        omega
      · have length := length_of_mem (valid q among) path inside
        have longer := extends_.length_le
        have some : 0 < u.length := List.length_pos_of_ne_nil root
        rw [string, List.length_append, List.length_singleton] at longer
        refine ⟨fun exactly => ?_, extends_.eq_of_length_le ?_⟩
        · have same := length.1 exactly
          omega
        · rw [string, List.length_append, List.length_singleton]
          rcases length.2 with single | short
          · rw [single, List.length_singleton] at longer
            omega
          · exact short
  have lost : ¬ Taken D paths i p r := fun taken => unmatched ((best r path i p listed).mp taken).1
  refine lost ⟨inside, fun _ j q listed' differ extends_ inside' => ?_⟩
  obtain ⟨prefixType', same⟩ := short q (List.mem_of_getElem? listed') inside' extends_
  exact string_distinct best valid listed listed' differ prefixType prefixType' alphabet same

/-- A prefix has no dot: else it would take a request with another character there. -/
theorem prefix_no_dot {i : Nat} (listed : paths[i]? = some p) (prefixType : p.pathType ≠ .Exact)
    (alphabet : p.InAlphabet) : '.' ∉ p.path := by
  intro dot
  have member := List.mem_of_getElem? listed
  have inBase : '.' ∈ p.base := by
    rcases base_cases (valid p member) with ⟨same, _⟩ | same
    · exact same ▸ dot
    · rw [same, List.mem_append] at dot
      exact dot.resolve_right (by decide)
  have some : p.base ≠ [] := fun empty => by simp [empty] at inBase
  have string : pathString p = p.base := by rw [pathString, if_neg prefixType, if_neg some]
  have whole : withoutTrailingSlash p.base = p.base := by
    rcases withoutTrailingSlash_cases p.base with ⟨same, _⟩ | same
    · exact same.symm
    · have slashes := base_slash (valid p member) ⟨_, same.symm⟩
      exact (prefix_no_slashes best valid listed prefixType alphabet slashes).elim
  have path : IsPath (undotted p.base) :=
    path_undotted ((base_path (valid p member)).resolve_left some)
      fun c inside => alphabet c ((withoutTrailingSlash_initial p.path).subset inside)
  have length : (undotted p.base).length = p.base.length := List.length_map _
  have inside : undotted p.base ∈ (automaton p : D) := by
    rw [mem_automaton_extends (valid p member) prefixType path, string, whole]
    exact Or.inr ⟨_, [], reads_undotted p.base, Or.inl rfl, (List.append_nil _).symm⟩
  have unmatched : ¬ p.Matches (undotted p.base) := fun matched =>
    dot_undotted p.base ((base_initial prefixType matched).subset inBase)
  have lost : ¬ Taken D paths i p (undotted p.base) :=
    fun taken => unmatched ((best _ path i p listed).mp taken).1
  refine lost ⟨inside, fun _ j q listed' differ extends_ inside' => ?_⟩
  have among := List.mem_of_getElem? listed'
  have alphabet' := inAlphabet_of_mem (valid q among) path inside'
  rw [string] at extends_
  by_cases exactly : q.pathType = .Exact
  · have dot' : '.' ∈ q.path := by
      have within := extends_.subset inBase
      rwa [pathString, if_pos exactly] at within
    exact exact_no_dot best valid among alphabet' exactly dot'
  · have distinct := string_distinct best valid listed listed' differ prefixType exactly alphabet
    rw [string] at distinct
    have noRoot : pathString q ≠ ['/'] := by
      intro root
      have within := extends_.subset inBase
      rw [root, List.mem_singleton] at within
      exact absurd within (by decide)
    have some' : q.base ≠ [] := by
      intro empty
      rw [pathString, if_neg exactly, if_pos empty] at noRoot
      exact noRoot rfl
    have string' : pathString q = q.base := by rw [pathString, if_neg exactly, if_neg some']
    rcases (mem_automaton_extends (valid q among) exactly path).mp inside' with
      root | ⟨u, v, reads, _, split⟩
    · exact noRoot root
    · rcases withoutTrailingSlash_cases q.base with ⟨same, _⟩ | same
      · apply distinct
        apply extends_.eq_of_length_le
        have total := congrArg List.length split
        rw [string', ← same] at reads
        have equal := reads_length reads
        rw [List.length_append] at total
        rw [string']
        omega
      · have slashes := base_slash (valid q among) ⟨_, same.symm⟩
        exact prefix_no_slashes best valid listed' exactly alphabet' slashes

theorem segregable_of_matchesBest : Segregable paths where
  no_dot p member alphabet := by
    obtain ⟨i, listed⟩ := List.mem_iff_getElem?.mp member
    by_cases exactly : p.pathType = .Exact
    · exact exact_no_dot best valid member alphabet exactly
    · exact prefix_no_dot best valid listed exactly alphabet
  no_slashes p member alphabet prefixType := by
    obtain ⟨i, listed⟩ := List.mem_iff_getElem?.mp member
    exact prefix_no_slashes best valid listed prefixType alphabet
  distinct i j p q listed listed' differ prefixType prefixType' alphabet same := by
    refine string_distinct best valid listed listed' differ prefixType prefixType' alphabet ?_
    rw [pathString, if_neg prefixType, pathString, if_neg prefixType', same]

end Converse

theorem exists_best (matched : ∃ p ∈ paths, p.Matches r) : ∃ p ∈ paths, p.BestMatch paths r := by
  by_contra none
  have longer : ∀ n, ∃ p ∈ paths, p.Matches r ∧ n ≤ p.base.length := by
    intro n
    induction n with
    | zero =>
      obtain ⟨p, member, matched⟩ := matched
      exact ⟨p, member, matched, Nat.zero_le _⟩
    | succ n ih =>
      obtain ⟨p, member, matched, long⟩ := ih
      by_contra bounded
      refine none ⟨p, member, matched, Or.inr fun q among matched' => ⟨fun exactly => ?_, ?_⟩⟩
      · exact none ⟨q, among, matched', Or.inl exactly⟩
      · by_contra more
        exact bounded ⟨q, among, matched', by omega⟩
  obtain ⟨p, member, _, long⟩ := longer (fill paths).length
  have short := base_length p
  have fresh := length_fill member
  omega

theorem parsed_normal {parsed : List (ParsedPath T)}
    (accepted : paths.mapM (ListedPath.parse unicode) = .ok parsed) :
    (∀ p ∈ paths, p.Valid unicode) ∧ parsed = paths.map ListedPath.normal := by
  induction paths generalizing parsed with
  | nil => exact ⟨List.forall_mem_nil _, (Except.ok.inj accepted).symm⟩
  | cons p rest ih =>
    rw [List.mapM_cons] at accepted
    cases first : p.parse unicode with
    | error e =>
      rw [first] at accepted
      cases accepted
    | ok parsed_path =>
      obtain ⟨valid, rfl⟩ := ListedPath.parse_ok.mp first
      cases others : rest.mapM (ListedPath.parse unicode) with
      | error e =>
        rw [first, others] at accepted
        cases accepted
      | ok parsed_paths =>
        rw [first, others] at accepted
        obtain ⟨valids, rfl⟩ := ih others
        exact ⟨List.forall_mem_cons.mpr ⟨valid, valids⟩, (Except.ok.inj accepted).symm⟩

theorem segregated_nil (none : (segregateLongestPathsAndMakeDfa (paths.map ListedPath.normal) :
    List (PathDfa D T)) = []) : paths = [] := by
  have length := congrArg List.length none
  rw [segregated_length, List.length_map] at length
  exact List.length_eq_zero_iff.mp length

theorem segregated_listed {e : PathDfa D T}
    (member : e ∈ (segregateLongestPathsAndMakeDfa (paths.map ListedPath.normal))) :
    ∃ i p, paths[i]? = some p ∧ e.target = p.target ∧ ∀ r, r ∈ e.path_dfa ↔ Taken D paths i p r := by
  obtain ⟨i, segregated⟩ := List.mem_iff_getElem?.mp member
  have bound : i < paths.length := by
    have length := (List.getElem?_eq_some_iff.mp segregated).1
    rwa [segregated_length, List.length_map] at length
  have listed := List.getElem?_eq_getElem bound
  obtain ⟨e', segregated', taken⟩ := segregated_get (D := D) listed
  obtain rfl : e = e' := Option.some.inj (segregated.symm.trans segregated')
  exact ⟨i, _, listed, taken⟩

/-- Without the cases that the segregation misses, an automaton takes a request exactly if a path
of the same target matches it best. -/
theorem segregated_best (valid : ∀ p ∈ paths, p.Valid unicode) (segregable : Segregable paths)
    (path : IsPath r) (holds : T → Prop) :
    (∃ e ∈ (segregateLongestPathsAndMakeDfa (paths.map ListedPath.normal) : List (PathDfa D T)),
      holds e.target ∧ r ∈ e.path_dfa) ↔
    ∃ p ∈ paths, holds p.target ∧ p.BestMatch paths r := by
  have best := matchesBest_of_segregable (D := D) valid segregable r path
  constructor
  · rintro ⟨e, member, held, inside⟩
    obtain ⟨i, p, listed, target, shares⟩ := segregated_listed member
    exact ⟨p, List.mem_of_getElem? listed, target ▸ held,
      (best i p listed).mp ((shares r).mp inside)⟩
  · rintro ⟨p, member, held, bestMatch⟩
    obtain ⟨i, listed⟩ := List.mem_iff_getElem?.mp member
    obtain ⟨e, segregated, target, shares⟩ := segregated_get (D := D) listed
    exact ⟨e, List.mem_of_getElem? segregated, target ▸ held,
      (shares r).mpr ((best i p listed).mpr bestMatch)⟩

/-- The requests that the automata take are those that the paths match. -/
theorem segregated_captured (valid : ∀ p ∈ paths, p.Valid unicode) (segregable : Segregable paths)
    (path : IsPath r) :
    (∃ e ∈ (segregateLongestPathsAndMakeDfa (paths.map ListedPath.normal) : List (PathDfa D T)),
      r ∈ e.path_dfa) ↔ ∃ p ∈ paths, p.Matches r := by
  have best := segregated_best (D := D) valid segregable path fun _ => True
  simp only [true_and] at best
  rw [best]
  constructor
  · rintro ⟨p, member, bestMatch⟩
    exact ⟨p, member, bestMatch.1⟩
  · exact exists_best

/-- The automata of the accepted paths take the requests that the paths match, each those that its
path matches best, exactly if the paths can be segregated. -/
theorem segregated_iff {parsed : List (ParsedPath T)}
    (accepted : paths.mapM (ListedPath.parse unicode) = .ok parsed) :
    let res : List (PathDfa D T) := segregateLongestPathsAndMakeDfa parsed
    (∀ r, IsPath r → ((∃ e ∈ res, r ∈ e.path_dfa) ↔ ∃ p ∈ paths, p.Matches r) ∧
      ∀ (i : Nat) p e, paths[i]? = some p → res[i]? = some e →
        (r ∈ e.path_dfa ↔ p.BestMatch paths r)) ↔
    Segregable paths := by
  intro res
  obtain ⟨valid, rfl⟩ := parsed_normal accepted
  constructor
  · intro property
    refine segregable_of_matchesBest (D := D) ?_ valid
    intro r path i p listed
    obtain ⟨e, segregated, _, shares⟩ := segregated_get (D := D) listed
    exact (shares r).symm.trans ((property r path).2 i p e listed segregated)
  · intro segregable r path
    refine ⟨segregated_captured valid segregable path, fun i p e listed segregated => ?_⟩
    obtain ⟨e', segregated', _, shares⟩ := segregated_get (D := D) listed
    obtain rfl : e = e' := Option.some.inj (segregated.symm.trans segregated')
    exact (shares r).trans (matchesBest_of_segregable valid segregable r path i p listed)

/-- The root, and an exact path below it. -/
def rootAndExact : List (ListedPath Unit) :=
  [⟨['/'], .Prefix, ()⟩, ⟨"/foo".toList, .Exact, ()⟩]

theorem rootAndExact_iff :
    let res : List (PathDfa WordSet Unit) :=
      segregateLongestPathsAndMakeDfa (rootAndExact.map ListedPath.normal)
    (∀ r, IsPath r → ((∃ e ∈ res, r ∈ e.path_dfa) ↔ ∃ p ∈ rootAndExact, p.Matches r) ∧
      ∀ (i : Nat) p e, rootAndExact[i]? = some p → res[i]? = some e →
        (r ∈ e.path_dfa ↔ p.BestMatch rootAndExact r)) ↔
    Segregable rootAndExact := by
  have accepted : rootAndExact.mapM (ListedPath.parse fun _ => false) =
      .ok (rootAndExact.map ListedPath.normal) := by
    rfl
  exact segregated_iff (D := WordSet) accepted

/-- A path that is listed twice, the second time with a trailing slash. -/
def listedTwice : List (ListedPath Unit) :=
  [⟨"/foo".toList, .Prefix, ()⟩, ⟨"/foo/".toList, .Prefix, ()⟩]

/-- Both automata lose the requests that both paths match. -/
theorem listedTwice_lost :
    ∃ parsed, listedTwice.mapM (ListedPath.parse fun _ => false) = .ok parsed ∧
      let res : List (PathDfa WordSet Unit) := segregateLongestPathsAndMakeDfa parsed
      IsPath "/foo".toList ∧ (∃ p ∈ listedTwice, p.Matches "/foo".toList) ∧
        ¬ ∃ e ∈ res, "/foo".toList ∈ e.path_dfa := by
  have accepted : listedTwice.mapM (ListedPath.parse fun _ => false) =
      .ok (listedTwice.map ListedPath.normal) := rfl
  have path : IsPath "/foo".toList := ⟨⟨"foo".toList, rfl⟩, List.all_eq_true.mp rfl⟩
  have equal : ∀ p ∈ listedTwice, p.pathType ≠ .Exact ∧ p.base = "/foo".toList ∧
      pathString p = "/foo".toList := by
    intro p member
    simp only [listedTwice, List.mem_cons, List.not_mem_nil, or_false] at member
    rcases member with rfl | rfl
    · exact ⟨by decide, rfl, rfl⟩
    · exact ⟨by decide, rfl, rfl⟩
  have matched : ∀ p ∈ listedTwice, p.Matches "/foo".toList := by
    intro p member
    obtain ⟨prefixType, base, _⟩ := equal p member
    rw [ListedPath.Matches, if_neg prefixType, base]
    exact Or.inl rfl
  refine ⟨_, accepted, path, ⟨_, List.mem_cons_self, matched _ List.mem_cons_self⟩, ?_⟩
  rintro ⟨e, member, inside⟩
  obtain ⟨i, segregated⟩ := List.mem_iff_getElem?.mp member
  have bound : i < 2 := (List.getElem?_eq_some_iff.mp segregated).1
  have other : ∃ j < 2, i ≠ j := by
    by_cases first : i = 0
    · exact ⟨1, by omega⟩
    · exact ⟨0, by omega⟩
  obtain ⟨j, bound', differ⟩ := other
  have listed : listedTwice[i]? = some listedTwice[i] := List.getElem?_eq_getElem bound
  have listed' : listedTwice[j]? = some listedTwice[j] := List.getElem?_eq_getElem bound'
  have among := List.mem_of_getElem? listed
  have among' := List.mem_of_getElem? listed'
  obtain ⟨e', segregated', _, shares⟩ := segregated_get (D := WordSet) listed
  obtain rfl : e = e' := Option.some.inj (segregated.symm.trans segregated')
  refine ((shares _).mp inside).2 (equal _ among).1 j _ listed' differ ?_ ?_
  · rw [(equal _ among).2.2, (equal _ among').2.2]
  · exact mem_of_matches ((parsed_normal accepted).1 _ among') path (matched _ among')

end Matching
end Nca.Parsers
