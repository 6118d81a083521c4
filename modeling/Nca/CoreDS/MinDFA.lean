import Nca.Lib.ExactSet
import Nca.Lib.Regex

/-!
Automata as exact sets of words, made from regular expressions. The words of the DFA dimensions are
over one alphabet; a path begins with a slash.
-/

namespace Nca.CoreDS
open Lib

abbrev Str := List Char

instance str_lawful : LawfulBEq Str := inferInstance

/-- Automata represent sets of words exactly, those of all regular expressions among them. -/
class MinDFA (D : Type) extends ExactSet D Str where
  ofRegex : Regex → D
  contains_ofRegex : ∀ r w, contains (ofRegex r) w = true ↔ w ∈ r.lang

namespace MinDFA

def default_alphabet_regex : Str := "[.\\w/\\-]*".toList

/-- A character of the alphabet `.\w/\-`. -/
def isAlphabetChar (c : Char) : Bool := c == '.' || isWordChar c || c == '/' || c == '-'

variable {D : Type} [MinDFA D]

def dfaFromRegex (s : Str) : D := ofRegex (Regex.parse s)

theorem mem_dfaFromRegex {s w : Str} : w ∈ (dfaFromRegex s : D) ↔ w ∈ (Regex.parse s).lang :=
  contains_ofRegex _ w

/-- A text without operators, in which only a dot stands for other characters. -/
theorem mem_dfaFromPlain {s w : Str} (ordinary : ∀ c ∈ s, Regex.Plain c) :
    w ∈ (dfaFromRegex s : D) ↔ Regex.Reads s w := by
  rw [mem_dfaFromRegex]
  exact Regex.mem_parse_plain ordinary

/-- `get_dimension_domain_by_name("paths")`. -/
def pathDomain : D := dfaFromRegex ('/' :: default_alphabet_regex)

/-- `get_dimension_domain_by_name("hosts")`. -/
def hostDomain : D := dfaFromRegex default_alphabet_regex

/-- A word of the paths domain. -/
def IsPath (w : Str) : Prop := ['/'] <+: w ∧ ∀ c ∈ w, isAlphabetChar c = true

theorem read_alphabet {group : Regex.Group} {outer : List Regex.Group} :
    default_alphabet_regex.foldl Regex.Reader.step ⟨outer, group, .text⟩ =
      ⟨outer, group.push (.star (.chars isAlphabetChar)), .text⟩ := by
  have same : isAlphabetChar =
      fun c => (((false || c == '.') || Regex.escaped 'w' c) || c == '/') || Regex.escaped '-' c := by
    funext c
    simp [isAlphabetChar, Regex.escaped]
  rw [same]
  rfl

theorem mem_hostWords {w : Str} : w ∈ (hostDomain : D) ↔ ∀ c ∈ w, isAlphabetChar c = true := by
  rw [hostDomain, mem_dfaFromRegex]
  unfold Regex.parse
  rw [read_alphabet]
  simp [Regex.Group.close, Regex.Group.push, Regex.Group.body]

theorem mem_pathDomain {w : Str} : w ∈ (pathDomain : D) ↔ IsPath w := by
  have slash : ∀ c ∈ ['/'], Regex.Plain c := by simp [Regex.Plain]
  have parsed := Regex.mem_parse_append (w := w) slash fun _ => read_alphabet
  rw [pathDomain, mem_dfaFromRegex, ← List.singleton_append, parsed]
  simp only [Regex.mem_star_chars, IsPath]
  constructor
  · rintro ⟨u, v, reads, valid, rfl⟩
    cases reads with
    | cons first rest =>
      cases rest
      obtain rfl := first.resolve_left (by decide)
      refine ⟨List.prefix_append ['/'] v, ?_⟩
      simpa [isAlphabetChar] using valid
  · rintro ⟨⟨v, rfl⟩, valid⟩
    refine ⟨['/'], v, ?_, fun c inside => valid c (List.mem_append_right _ inside), rfl⟩
    exact .cons (Or.inr rfl) .nil

end MinDFA

/-- All sets of words. -/
def WordSet : Type := Set Str

open Classical in
noncomputable instance : MinDFA WordSet where
  union s t := fun w => s w ∨ t w
  inter s t := fun w => s w ∧ t w
  sdiff s t := fun w => s w ∧ ¬ t w
  emptyCollection := fun _ => False
  decEq := inferInstance
  contains s w := decide (s w)
  contains_empty w := by simp
  contains_union s t w := by simp
  contains_inter s t w := by simp
  contains_sdiff s t w := by simp
  ext s t same := by
    funext w
    simpa using same w
  ofRegex r := fun w => w ∈ r.lang
  contains_ofRegex r w := by simp

end Nca.CoreDS
