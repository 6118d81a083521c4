import Nca.Lib.Returns
import Nca.Parsers.IngressPolicyYamlParser

/-!
The hosts that an Ingress rule matches. The automaton of the host pattern has the hosts that the
pattern matches, and is never empty.
-/

namespace Nca.Parsers
open CoreDS Lib MinDFA

/-- A pattern matches itself, where a star stands for word characters. -/
inductive Globs : Str → Str → Prop
  | nil : Globs [] []
  | star {run pattern host : Str} (word : ∀ c ∈ run, isWordChar c = true)
      (rest : Globs pattern host) : Globs ('*' :: pattern) (run ++ host)
  | char {c : Char} {pattern host : Str} (ordinary : c ≠ '*') (rest : Globs pattern host) :
      Globs (c :: pattern) (c :: host)

/-- A rule without a host matches all hosts, and so does a star alone. -/
def HostMatches (host : Option Str) (h : Str) : Prop :=
  ∀ pattern, host = some pattern → pattern = ['*'] ∨ Globs pattern h

/-- A word of the hosts domain. -/
def IsHost (h : Str) : Prop := ∀ c ∈ h, isAlphabetChar c = true

variable {D : Type} [MinDFA D] {unicode : Char → Bool} {pattern h : Str}

theorem mem_hostDomain : h ∈ (hostDomain : D) ↔ IsHost h := mem_hostWords

theorem exists_globs (pattern : Str) : ∃ h, Globs pattern h := by
  induction pattern with
  | nil => exact ⟨[], .nil⟩
  | cons c rest ih =>
    obtain ⟨h, globs⟩ := ih
    by_cases star : c = '*'
    · rw [star]
      exact ⟨[] ++ h, .star (List.forall_mem_nil _) globs⟩
    · exact ⟨c :: h, .char star globs⟩

/-- The text that a character of a host pattern is replaced by. -/
def hostText (c : Char) : Str :=
  if c = '.' then "[.]".toList else if c = '*' then "[\\w]*".toList else [c]

def hostItem (c : Char) : Regex :=
  if c = '.' then .chars fun d => false || d == '.'
  else if c = '*' then .star (.chars fun d => false || Regex.escaped 'w' d)
  else Regex.plain c

/-- What the validation of a host checks of a character. -/
def HostChar (unicode : Char → Bool) (c : Char) : Prop :=
  c = '*' ∨ c = '.' ∨ isReWord unicode c = true ∨ c = '/' ∨ c = '-'

theorem read_hostText {c : Char} (valid : HostChar unicode c) (group : Regex.Group) :
    (hostText c).foldl Regex.Reader.step ⟨[], group, .text⟩ = ⟨[], group.push (hostItem c), .text⟩ := by
  unfold hostText hostItem
  by_cases dot : c = '.'
  · rw [if_pos dot, if_pos dot]
    rfl
  · rw [if_neg dot, if_neg dot]
    by_cases star : c = '*'
    · rw [if_pos star, if_pos star]
      rfl
    · rw [if_neg star, if_neg star]
      exact Regex.step_plain (plain_of_valid (valid.resolve_left star))

theorem mem_hostItem {c : Char} {u : Str} : u ∈ (hostItem c).lang ↔
    if c = '*' then ∀ d ∈ u, isWordChar d = true else u = [c] := by
  unfold hostItem
  by_cases dot : c = '.'
  · simp [dot]
  · rw [if_neg dot]
    by_cases star : c = '*'
    · rw [if_pos star, if_pos star]
      simp [Regex.escaped]
    · rw [if_neg star, if_neg star, Regex.mem_plain]
      simp [dot]

theorem spells_hostItem : Regex.Spells hostItem pattern h ↔ Globs pattern h := by
  constructor
  · intro spells
    induction spells with
    | nil => exact .nil
    | @cons c _ u v first _ ih =>
      rw [mem_hostItem] at first
      by_cases star : c = '*'
      · rw [if_pos star] at first
        rw [star]
        exact .star first ih
      · rw [if_neg star] at first
        rw [first]
        exact .char star ih
  · intro globs
    induction globs with
    | nil => exact .nil
    | star word _ ih => exact .cons (mem_hostItem.mpr word) ih
    | @char c _ _ ordinary _ ih =>
      have first : [c] ∈ (hostItem c).lang := by rw [mem_hostItem, if_neg ordinary]
      exact .cons first ih

theorem mem_hostDfa (valid : ∀ c ∈ pattern, HostChar unicode c) :
    h ∈ (dfaFromRegex (pattern.flatMap hostText) : D) ↔ Globs pattern h := by
  rw [mem_dfaFromRegex, Regex.mem_parse_items hostText, spells_hostItem]
  exact fun c inside => read_hostText (valid c inside)

/-- Escaping the dots and then replacing the stars gives the texts of the characters. -/
theorem escaped_replaced : ((pattern.flatMap fun c => if c = '.' then "[.]".toList else [c]).flatMap
    fun c => if c = '*' then "[\\w]*".toList else [c]) = pattern.flatMap hostText := by
  rw [List.flatMap_assoc]
  refine List.flatMap_congr fun c _ => ?_
  unfold hostText
  by_cases dot : c = '.'
  · rw [if_pos dot, if_pos dot]
    rfl
  · rw [if_neg dot, if_neg dot]
    exact List.flatMap_singleton _ c

theorem escaped_of_no_star (noStar : '*' ∉ pattern.flatMap fun c =>
      if c = '.' then "[.]".toList else [c]) :
    (pattern.flatMap fun c => if c = '.' then "[.]".toList else [c]) = pattern.flatMap hostText := by
  refine List.flatMap_congr fun c inside => ?_
  unfold hostText
  by_cases dot : c = '.'
  · rw [if_pos dot, if_pos dot]
  · rw [if_neg dot, if_neg dot, if_neg]
    rintro rfl
    exact noStar (List.mem_flatMap.mpr ⟨'*', inside, by rw [if_neg dot]; exact List.mem_cons_self⟩)

/-- What a parsed host is: nothing where all hosts are meant, else an automaton of the hosts that
the pattern matches. -/
structure ParsedHost (host : Option Str) (hosts_dfa : Option D) : Prop where
  present : hosts_dfa = ifNonEmpty hosts_dfa
  matched : ∀ h, IsHost h → ((∀ hosts, hosts_dfa = some hosts → h ∈ hosts) ↔ HostMatches host h)

def IsSyntaxError (e : ParseError) : Prop := ∃ message, e = .SyntaxError message

theorem ifNonEmpty_of_mem {dfa : D} (member : h ∈ dfa) : ifNonEmpty (some dfa) = some dfa := by
  rw [ifNonEmpty, Option.filter_some, if_pos (ExactSet.bool_iff.mpr ⟨h, member⟩)]

/-- The words of an automaton that may be missing. -/
def OptMem (dfa : Option D) (r : Str) : Prop := ∃ d, dfa = some d ∧ r ∈ d

theorem mem_addDfa {all_dfa : Option D} {dfa : D} {r : Str} :
    r ∈ addDfa all_dfa dfa ↔ OptMem all_dfa r ∨ r ∈ dfa := by
  unfold addDfa OptMem
  cases all_dfa with
  | none => simp [ifNonEmpty]
  | some d =>
    rw [ifNonEmpty, Option.filter_some]
    by_cases given : ExactSet.bool d = true
    · rw [if_pos given]
      simp
    · rw [if_neg given]
      rw [Bool.not_eq_true, ExactSet.bool_eq_false] at given
      simp [given]

theorem parsedHost_pattern (valid : ∀ c ∈ pattern, HostChar unicode c) (proper : pattern ≠ ['*']) :
    ParsedHost (some pattern) (some (dfaFromRegex (pattern.flatMap hostText) : D)) where
  present := by
    obtain ⟨h, globs⟩ := exists_globs pattern
    exact (ifNonEmpty_of_mem ((mem_hostDfa valid).mpr globs)).symm
  matched h _ := by
    simp [HostMatches, mem_hostDfa valid, proper]

theorem parseRegexHostValue_spec (host : Option Str) :
    Ends IsSyntaxError (parseRegexHostValue (D := D) unicode host) (ParsedHost host) := by
  unfold parseRegexHostValue
  cases host with
  | none => exact ends_pure ⟨rfl, by simp [HostMatches]⟩
  | some pattern =>
    refine ends_ite (fun star => ?_) fun proper => ?_
    · refine ends_pure ⟨?_, fun h inside => ?_⟩
      · exact (ifNonEmpty_of_mem (mem_hostDomain.mpr (List.forall_mem_nil _))).symm
      · simp [HostMatches, star, mem_hostDomain.mpr inside]
    · refine ends_ite (fun _ => ⟨_, rfl⟩) fun legal => ?_
      rw [Bool.not_eq_true, Bool.not_eq_false', List.all_eq_true] at legal
      have valid : ∀ c ∈ pattern, HostChar unicode c := fun c inside => by
        simpa [HostChar, or_assoc] using legal c inside
      dsimp only
      refine ends_ite (fun _ => ?_) fun noStar => ?_
      · refine ends_ite (fun _ => ⟨_, rfl⟩) fun _ => ?_
        rw [escaped_replaced]
        exact ends_pure (parsedHost_pattern valid proper)
      · rw [escaped_of_no_star noStar]
        exact ends_pure (parsedHost_pattern valid proper)

end Nca.Parsers
