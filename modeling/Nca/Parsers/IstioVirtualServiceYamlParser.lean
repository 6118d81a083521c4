import Nca.Resources.VirtualService

/-!
The parser of Istio virtual services: the conditions of their HTTP routes.
-/

namespace Nca.Parsers
open CoreDS Lib Resources

/-- The namespace that `get_namespace` returns for a name, by its own name. -/
def namespaceName (name : String) : String := if name = "" then "default" else name

namespace IstioVirtualServiceYamlParser

section

variable {E D : Type} [MinDFA D] (re_match : Str → Str → Bool)

/-- The name of a gateway with its namespace, which is the given one if it names none. -/
def gatewayName («namespace» : String) (gtw : Str) : String :=
  let first := gtw.takeWhile (· ≠ '/')
  if '/' ∈ gtw then
    namespaceName (String.ofList first) ++ "/" ++ String.ofList (gtw.drop (first.length + 1))
  else «namespace» ++ "/" ++ String.ofList gtw

def parseVsGateways («namespace» : String) (resource_spec : Yaml) (gateway_names : List String)
    (are_global_gtw : Bool := false) : Except ParseError (List String) := do
  let gateways ← resource_spec.get "gateways"
  if gateways.truthy then
    (← gateways.iterate).foldlM (fun gateway_names gtw => do
      if gtw.isStr "mesh" then return addMesh gateway_names
      else return gateway_names ++ [gatewayName «namespace» (← gtw.asText)]) gateway_names
  else if are_global_gtw then return addMesh gateway_names
  else return gateway_names

/-- The value that a regular expression is converted to: methods for the attribute `method`, else an
automaton. -/
def regexValue (attr_name : String) (regex : Str) : D ⊕ MethodSet :=
  if attr_name = "method" then .inr (methodsFromRegex re_match regex)
  else .inl (MinDFA.dfaFromRegex regex)

/-- A value of the wrong form is ignored. -/
def parseIstioRegexString (resource : Yaml) (attr_name : String) :
    Except ParseError (Option (D ⊕ MethodSet)) := do
  let res ← resource.get attr_name
  if !res.truthy then return none
  match ← res.items with
  | [(kind, value)] =>
    if kind = "exact" then
      return some (regexValue re_match attr_name (← value.asText))
    else if kind = "prefix" then
      let regex ← value.asText
      if attr_name = "uri" then return some (.inl (getPathPrefixDfa regex))
      else return some (regexValue re_match attr_name (regex ++ MinDFA.default_alphabet_regex))
    else if kind = "regex" then
      return some (regexValue re_match attr_name (← value.asText))
    else return none
  | _ => return none

/-- What is read of the attribute `uri` of a match item. -/
def parseUri (item : Yaml) : Except ParseError (Option D) := do
  return match ← parseIstioRegexString (D := D) re_match item "uri" with
    | some (.inl uri_dfa) => some uri_dfa
    | _ => none

variable (D) in
/-- What is read of the attribute `method` of a match item. -/
def parseMethod (item : Yaml) : Except ParseError (Option MethodSet) := do
  return match ← parseIstioRegexString (D := D) re_match item "method" with
    | some (.inr methods) => some methods
    | _ => none

/-- `add_uri_dfa` if there is an automaton and it is not empty. -/
def addUri (result_route : Route E D) (uri_dfa : Option D) : Route E D :=
  match ifNonEmpty uri_dfa with
  | none => result_route
  | some uri_dfa => result_route.addUriDfa uri_dfa

/-- `add_methods`, with all methods if there are none. -/
def addMethodsOrAll (result_route : Route E D) (methods : Option MethodSet) : Route E D :=
  result_route.addMethods ((methods.filter (· ≠ ∅)).getD allMethods)

/-- One turn of the loop over the items of a match. -/
def parseMatchItem (vs : VirtualService E D) (result_route : Route E D) (item : Yaml) :
    Except ParseError (Route E D) := do
  checkFieldsValidity item s!"HTTPMatchRequest in the VirtualService {vs.fullName}"
    [("name", ⟨0, some .str⟩), ("uri", ⟨0, none⟩), ("scheme", ⟨3, none⟩), ("method", ⟨0, none⟩),
      ("authority", ⟨3, none⟩), ("headers", ⟨3, some .dict⟩), ("withoutHeaders", ⟨3, none⟩),
      ("port", ⟨3, some .int⟩), ("sourceLabels", ⟨3, some .dict⟩), ("gateways", ⟨0, some .list⟩),
      ("queryParams", ⟨3, some .dict⟩), ("sourceNamespace", ⟨3, some .str⟩)]
  let result_route := addUri result_route (← parseUri re_match item)
  let result_route := addMethodsOrAll result_route (← parseMethod D re_match item)
  let gateway_names ← parseVsGateways vs.namespace item result_route.gateway_names
  return { result_route with gateway_names }

def parseHttpMatchRequest (vs : VirtualService E D) (route : Yaml) (result_route : Route E D) :
    Except ParseError (Route E D) := do
  let match_ ← route.get "match"
  if !match_.truthy then return result_route
  (← match_.iterate).foldlM (parseMatchItem re_match vs) result_route

end
end IstioVirtualServiceYamlParser
end Nca.Parsers
