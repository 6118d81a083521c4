import Nca.CoreDS.MinDFA
import Nca.Parsers.GenericYamlParser

/-!
The paths of an Ingress rule: their validation, their automata, and the segregation that leaves to
each path the requests for which it is the longest match.
-/

namespace Nca.Parsers
open CoreDS Lib

inductive PathType where
  | ImplementationSpecific
  | Exact
  | Prefix
  deriving DecidableEq, Repr

/-- A parsed path with the peers and ports that it leads to. -/
structure ParsedPath (T : Type) where
  path_string : Str
  path_type : PathType
  target : T

/-- `\w` of the module `re`, which also matches word characters beyond ASCII. -/
def isReWord (unicode : Char → Bool) (c : Char) : Bool :=
  isWordChar c || (decide (128 ≤ c.toNat) && unicode c)

section Model

variable {T : Type} (unicode : Char → Bool)

def validatePathValue (path_value : Str) : Except ParseError Unit := do
  if path_value.head? ≠ some '/' then
    throw (.SyntaxError s!"Illegal path {String.ofList path_value} in the rule path")
  if !path_value.all fun c => c == '.' || isReWord unicode c || c == '/' || c == '-' then
    throw (.SyntaxError s!"Illegal characters in path {String.ofList path_value}")

/-- `path_string[:-1]` if `path_string` ends with a slash. -/
def withoutTrailingSlash (path_string : Str) : Str :=
  if path_string.getLast? = some '/' then path_string.dropLast else path_string

/-- The part of `parse_ingress_path` that is about the path string and its type. -/
def parsePathString (path : Option Str) (pathType : PathType) (target : T) :
    Except ParseError (ParsedPath T) := do
  let path_type := if pathType = .ImplementationSpecific then .Prefix else pathType
  match path with
  | none | some [] => throw (.SyntaxError "Missing path string in the rule path")
  | some path_string =>
    validatePathValue unicode path_string
    let path_string := if path_type = .Prefix then withoutTrailingSlash path_string else path_string
    return ⟨path_string, path_type, target⟩

variable {D : Type} [MinDFA D]

def getPathPrefixDfa (path_string : Str) : D :=
  if path_string = ['/'] then MinDFA.pathDomain
  else MinDFA.dfaFromRegex (withoutTrailingSlash path_string ++
    ("(/".toList ++ (MinDFA.default_alphabet_regex ++ ")?".toList)))

/-- A path with its automaton. -/
structure PathDfa (D T : Type) extends ParsedPath T where
  path_dfa : D

def makePathDfa (path : ParsedPath T) : PathDfa D T :=
  if path.path_type = .Exact then ⟨path, MinDFA.dfaFromRegex path.path_string⟩
  else
    let path_string := if path.path_string = [] then ['/'] else path.path_string
    ⟨{ path with path_string := path_string }, getPathPrefixDfa path_string⟩

/-- One turn of the inner loop of `segregate_longest_paths_and_make_dfa`. -/
def subtractLonger (path_string : Str) (i : Nat) (path_dfa : D) (other : PathDfa D T × Nat) : D :=
  if i = other.2 then path_dfa
  else if path_string.isPrefixOf other.1.path_string then path_dfa \ other.1.path_dfa
  else path_dfa

def segregateLongestPathsAndMakeDfa (parsed_paths : List (ParsedPath T)) : List (PathDfa D T) :=
  let parsed_paths_with_dfa := parsed_paths.map makePathDfa
  parsed_paths_with_dfa.zipIdx.map fun entry =>
    if entry.1.path_type = .Exact then entry.1
    else { entry.1 with
      path_dfa := parsed_paths_with_dfa.zipIdx.foldl (subtractLonger entry.1.path_string entry.2)
        entry.1.path_dfa }

end Model
end Nca.Parsers
