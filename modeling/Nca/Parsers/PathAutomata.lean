import Nca.Parsers.IstioPatterns
import Nca.Parsers.IstioVirtualServiceYamlParser

/-!
The words of the automata that are made of paths. An exact path stands for itself unless it has a
dot that is left unescaped, as in Ingress resources and virtual services; a prefix stands for itself
and what extends it after a slash unless it has such a dot, leaves the alphabet of paths, or ends
with two slashes.
-/

namespace Nca.Parsers
open CoreDS Lib MinDFA IstioVirtualServiceYamlParser

/-- What the parsers allow in a path. -/
def PathChars (unicode : Char → Bool) (path : Str) : Prop :=
  ∀ c ∈ path, c = '.' ∨ isReWord unicode c = true ∨ c = '/' ∨ c = '-'

variable {T D : Type} [MinDFA D] {unicode : Char → Bool} {p : ListedPath T} {w path : Str} {dfa : D}

/-- The prefix itself, where it is no root, and the paths that go on after it with a slash. -/
def PrefixWord (p : ListedPath T) (w : Str) : Prop :=
  (p.base ≠ [] ∧ w = p.base) ∨ (p.base ++ ['/'] <+: w ∧ IsPath w)

/-- A prefix whose automaton is right. -/
structure PlainPrefix (p : ListedPath T) : Prop where
  no_dot : '.' ∉ p.path
  alphabet : p.InAlphabet
  no_slashes : ¬ ['/', '/'] <:+ p.path

section Exact

/-- A pattern is read as no other word exactly if it has no dot. -/
theorem reads_only : (∀ w, Regex.Reads path w ↔ w = path) ↔ '.' ∉ path := by
  constructor
  · intro only dot
    have same := (only _).mp (reads_undotted path)
    rw [← same] at dot
    exact dot_undotted path dot
  · intro noDot w
    constructor
    · exact fun reads => (reads_eq noDot reads).symm
    · rintro rfl
      exact reads_self w

theorem exactPath_only (chars : PathChars unicode path) :
    (∀ w, w ∈ (dfaFromRegex path : D) ↔ w = path) ↔ '.' ∉ path := by
  rw [← reads_only]
  apply forall_congr'
  intro w
  rw [mem_dfaFromPlain fun c inside => plain_of_valid (chars c inside)]

theorem parseUri_exact {re_match : Str → Str → Bool} {item : Yaml} {value : String}
    (field : item.field "uri" = .dict [("exact", .str value)])
    (parsed : parseUri re_match item = .ok (some dfa)) : dfa = dfaFromRegex value.toList := by
  unfold parseUri parseIstioRegexString at parsed
  obtain ⟨res, read, parsed⟩ := bind_ok.mp parsed
  obtain ⟨found, got, read⟩ := bind_ok.mp read
  obtain ⟨_, same⟩ := Yaml.get_ok.mp got
  rw [field] at same
  rw [← same] at read
  obtain rfl := Except.ok.inj read
  exact (Option.some.inj (Except.ok.inj parsed)).symm

theorem parsePaths_exact {caches caches' : Caches D} {operation dim_name : String}
    (exactly : '*' ∉ path)
    (parsed : parseRegexDimensionValues unicode caches operation dim_name .paths (some [path]) none =
      .ok (some dfa, caches')) : w ∈ dfa ↔ w = path := by
  obtain ⟨_, same, _, words⟩ := parseValues_words parsed
  obtain rfl := Option.some.inj same
  rw [words]
  simp only [List.mem_singleton, exists_eq_left]
  exact takes_plain exactly

end Exact

section Prefix

variable (valid : p.Valid unicode) (notExact : p.pathType ≠ .Exact)
include valid notExact

/-- The root takes all paths, and is plain. -/
theorem rootPrefix_words (root : p.base = []) :
    (∀ w, w ∈ (automaton p : D) ↔ PrefixWord p w) ↔ PlainPrefix p := by
  have path : p.path = ['/'] := by
    rcases base_cases valid with ⟨_, _, nonEmpty⟩ | slash
    · exact (nonEmpty root).elim
    · rw [slash, root, List.nil_append]
  have string : pathString p = ['/'] := by rw [pathString, if_neg notExact, if_pos root]
  apply iff_of_true
  · intro w
    rw [mem_prefixAutomaton valid notExact, if_pos string, PrefixWord, root]
    simp only [ne_eq, not_true_eq_false, false_and, List.nil_append, false_or]
    exact ⟨fun inside => ⟨inside.1, inside⟩, And.right⟩
  · constructor
    · rw [path]
      decide
    · unfold ListedPath.InAlphabet
      rw [path]
      exact List.all_eq_true.mp (by decide)
    · rw [path]
      decide

/-- A prefix that ends with two slashes loses both of them in the automaton. -/
theorem slashesPrefix_wrong (slashes : ['/', '/'] <:+ p.path) :
    ¬ ∀ w, w ∈ (automaton p : D) ↔ PrefixWord p w := by
  obtain ⟨t, path⟩ := slashes
  have base : p.base = t ++ ['/'] := by
    have split : p.path = (t ++ ['/']) ++ ['/'] := by
      rw [← path, List.append_assoc, List.singleton_append]
    rw [ListedPath.base, split, withoutTrailingSlash_append]
  have string : pathString p = t ++ ['/'] := by
    rw [pathString, if_neg notExact, if_neg (by simp [base]), base]
  intro same
  by_cases root : t = []
  · have inside : ['/', 'a'] ∈ (automaton p : D) := by
      rw [mem_prefixAutomaton valid notExact, string, root, if_pos (List.nil_append _)]
      exact ⟨⟨['a'], rfl⟩, List.all_eq_true.mp (by decide)⟩
    rcases (same _).mp inside with ⟨_, whole⟩ | ⟨below, _⟩
    · rw [base, root] at whole
      exact absurd whole (by decide)
    · rw [base, root] at below
      exact absurd below (by decide)
  · have inside : t ∈ (automaton p : D) := by
      have other : t ++ ['/'] ≠ ['/'] := by simpa using root
      rw [mem_prefixAutomaton valid notExact, string, if_neg other, withoutTrailingSlash_append]
      exact ⟨t, [], reads_self t, Or.inl rfl, (List.append_nil t).symm⟩
    rcases (same _).mp inside with ⟨_, whole⟩ | ⟨below, _⟩
    · have length := congrArg List.length whole
      rw [base, List.length_append, List.length_singleton] at length
      omega
    · have length := below.length_le
      rw [base, List.length_append, List.length_append, List.length_singleton] at length
      omega

theorem mem_plainAutomaton (nonEmpty : p.base ≠ []) (noSlashes : ¬ ['/', '/'] <:+ p.path) :
    w ∈ (automaton p : D) ↔ ∃ u v, Regex.Reads p.base u ∧ Extends v ∧ w = u ++ v := by
  have noSlash : ¬ ['/'] <:+ p.base := mt (base_slash valid) noSlashes
  have string : pathString p = p.base := by rw [pathString, if_neg notExact, if_neg nonEmpty]
  have whole : withoutTrailingSlash p.base = p.base := by
    rcases withoutTrailingSlash_cases p.base with ⟨same, _⟩ | same
    · exact same.symm
    · exact (noSlash ⟨_, same.symm⟩).elim
  have other : p.base ≠ ['/'] := fun root => noSlash (root ▸ List.suffix_refl _)
  rw [mem_prefixAutomaton valid notExact, string, if_neg other, whole]

/-- Without two slashes at the end the automaton is right exactly if the prefix is plain. -/
theorem plainPrefix_words (nonEmpty : p.base ≠ []) (noSlashes : ¬ ['/', '/'] <:+ p.path) :
    (∀ w, w ∈ (automaton p : D) ↔ PrefixWord p w) ↔ PlainPrefix p := by
  have slash : isAlphabetChar '/' = true := by decide
  have inBase : ∀ c ∈ p.path, c ∈ p.base ∨ c = '/' := by
    intro c inside
    rcases base_cases valid with ⟨same, _⟩ | same
    · exact Or.inl (same ▸ inside)
    · rwa [same, List.mem_append, List.mem_singleton] at inside
  constructor
  · intro same
    constructor
    · intro dot
      have dot : '.' ∈ p.base := (inBase '.' dot).resolve_right (by decide)
      have inside : undotted p.base ∈ (automaton p : D) := by
        rw [mem_plainAutomaton valid notExact nonEmpty noSlashes]
        exact ⟨_, [], reads_undotted p.base, Or.inl rfl, (List.append_nil _).symm⟩
      rcases (same _).mp inside with ⟨_, whole⟩ | ⟨below, _⟩
      · rw [← whole] at dot
        exact dot_undotted p.base dot
      · have length := below.length_le
        rw [undotted, List.length_map, List.length_append, List.length_singleton] at length
        omega
    · have inside : p.base ++ ['/'] ∈ (automaton p : D) := by
        rw [mem_plainAutomaton valid notExact nonEmpty noSlashes]
        refine ⟨_, ['/'], reads_self p.base, Or.inr ⟨List.prefix_refl _, ?_⟩, rfl⟩
        exact List.forall_mem_singleton.mpr slash
      rcases (same _).mp inside with ⟨_, whole⟩ | ⟨_, path⟩
      · have length := congrArg List.length whole
        rw [List.length_append, List.length_singleton] at length
        omega
      · intro c member
        rcases inBase c member with member | rfl
        · exact path.2 c (List.mem_append_left _ member)
        · exact slash
    · exact noSlashes
  · intro plain w
    have within : ∀ c ∈ p.base, c ∈ p.path := (withoutTrailingSlash_initial p.path).subset
    have noDot : '.' ∉ p.base := mt (within '.') plain.no_dot
    rw [mem_plainAutomaton valid notExact nonEmpty noSlashes]
    constructor
    · rintro ⟨u, v, reads, extension, rfl⟩
      obtain rfl := reads_eq noDot reads
      rcases extension with rfl | ⟨⟨t, rfl⟩, chars⟩
      · exact Or.inl ⟨nonEmpty, List.append_nil _⟩
      · refine Or.inr ⟨⟨t, List.append_assoc _ _ _⟩, ?_, ?_⟩
        · exact ((base_path valid).resolve_left nonEmpty).trans (List.prefix_append _ _)
        · exact List.forall_mem_append.mpr
            ⟨fun c inside => plain.alphabet c (within c inside), chars⟩
    · rintro (⟨_, rfl⟩ | ⟨⟨t, rfl⟩, path⟩)
      · exact ⟨_, [], reads_self p.base, Or.inl rfl, (List.append_nil _).symm⟩
      · refine ⟨_, ['/'] ++ t, reads_self p.base, Or.inr ⟨List.prefix_append _ t, ?_⟩,
          List.append_assoc _ _ _⟩
        rw [List.append_assoc] at path
        exact fun c inside => path.2 c (List.mem_append_right _ inside)

theorem prefixAutomaton_words :
    (∀ w, w ∈ (automaton p : D) ↔ PrefixWord p w) ↔ PlainPrefix p := by
  by_cases root : p.base = []
  · exact rootPrefix_words valid notExact root
  · by_cases slashes : ['/', '/'] <:+ p.path
    · exact iff_of_false (slashesPrefix_wrong valid notExact slashes)
        fun plain => plain.no_slashes slashes
    · exact plainPrefix_words valid notExact root slashes

end Prefix

/-- The automata that are made of accepted paths. That of an exact path has the path alone: in an
Ingress resource and in a virtual service if the path has no dot, in an authorization policy always.
That of a prefix has the prefix and the paths below it if the prefix is plain. -/
theorem pathAutomata_words :
    (∀ (p : ListedPath T) parsed, p.parse unicode = .ok parsed →
      (p.pathType = .Exact → ((∀ w, w ∈ (makePathDfa parsed : PathDfa D T).path_dfa ↔ w = p.path) ↔
        '.' ∉ p.path)) ∧
      (p.pathType ≠ .Exact → ((∀ w, w ∈ (makePathDfa parsed : PathDfa D T).path_dfa ↔
        PrefixWord p w) ↔ PlainPrefix p))) ∧
    (∀ re_match (item : Yaml) (value : String) (dfa : D),
      item.field "uri" = .dict [("exact", .str value)] → PathChars unicode value.toList →
      parseUri re_match item = .ok (some dfa) →
      ((∀ w, w ∈ dfa ↔ w = value.toList) ↔ '.' ∉ value.toList)) ∧
    ∀ (caches caches' : Caches D) operation dim_name path (dfa : D), '*' ∉ path →
      parseRegexDimensionValues unicode caches operation dim_name .paths (some [path]) none =
        .ok (some dfa, caches') →
      ∀ w, w ∈ dfa ↔ w = path := by
  refine ⟨fun p parsed accepted => ?_, ?_, ?_⟩
  · obtain ⟨valid, rfl⟩ := ListedPath.parse_ok.mp accepted
    rw [makePathDfa_normal]
    constructor
    · intro exactly
      dsimp only
      rw [← reads_only]
      apply forall_congr'
      intro w
      rw [mem_automaton_reads valid exactly]
    · exact prefixAutomaton_words valid
  · intro re_match item value dfa field chars parsed
    obtain rfl := parseUri_exact field parsed
    exact exactPath_only chars
  · intro caches caches' operation dim_name path dfa exactly parsed w
    exact parsePaths_exact exactly parsed

/-- A path with a dot, which stands for other characters as well. -/
def dottedPath : ListedPath Unit := ⟨"/v1.0".toList, .Exact, ()⟩

theorem dottedPath_words :
    (∀ w, w ∈ (makePathDfa dottedPath.normal : PathDfa WordSet Unit).path_dfa ↔
      w = dottedPath.path) ↔ '.' ∉ dottedPath.path := by
  have accepted : dottedPath.parse (fun _ => false) = .ok dottedPath.normal := rfl
  exact (pathAutomata_words.1 dottedPath _ accepted).1 rfl

theorem dottedPath_other :
    dottedPath.parse (fun _ => false) = .ok dottedPath.normal ∧
      "/v1x0".toList ∈ (makePathDfa dottedPath.normal : PathDfa WordSet Unit).path_dfa ∧
      "/v1x0".toList ≠ dottedPath.path := by
  have accepted : dottedPath.parse (fun _ => false) = .ok dottedPath.normal := rfl
  refine ⟨accepted, ?_, by decide⟩
  rw [makePathDfa_normal, mem_automaton_reads (ListedPath.parse_ok.mp accepted).1 rfl]
  have same : ∀ c : Char, c = '.' ∨ c = c := fun c => Or.inr rfl
  exact .cons (same _) (.cons (same _) (.cons (same _) (.cons (Or.inl rfl) (.cons (same _) .nil))))

end Nca.Parsers
