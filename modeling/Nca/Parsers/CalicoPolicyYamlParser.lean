import Mathlib.Data.Finset.Sum
import Mathlib.Data.Finset.Union
import Nca.Lib.Pattern
import Nca.Lib.Texts
import Nca.NetworkConfig.PeerLookups
import Nca.Parsers.IngressPaths

/-!
The label selectors of Calico policies. A selector is split at its operators with brackets counted,
and its atomic expressions are read by regular expressions.
-/

namespace Nca.Parsers
open CoreDS Lib Lib.Texts NetworkConfig TopologyPeers

section Brackets

/-- The brackets of a text that are open at its end. -/
def bracketCount (expression : Str) : Int := expression.count '(' - expression.count ')'

/-- The first bracket is closed before the last character of the expression. -/
def doNotRemove (expression : Str) : Bool :=
  (expression.dropLast.foldl (fun (n_brackets, do_not_remove) c =>
    let n_brackets := n_brackets + bracketCount [c]
    (n_brackets, do_not_remove || n_brackets == 0)) ((0 : Int), false)).2

def stripBrackets : Nat → Str → Str
  | 0, expression => expression
  | fuel + 1, expression =>
    if expression.head? = some '(' ∧ expression.getLast? = some ')' ∧
        doNotRemove expression = false then
      stripBrackets fuel (strip expression.tail.dropLast)
    else expression

def stripSelector (expression : Str) : Except ParseError Str := do
  let expression := strip expression
  syntaxErrorIf (expression.count '(' ≠ expression.count ')')
    ("number of brackets are not even: " ++ String.ofList expression)
  return stripBrackets expression.length expression

/-- An operator of a selector consists of two characters. -/
def splitSelector (expression : Str) (a b : Char) : List Str :=
  ((splitBy a b expression).foldl (fun (split_expr, current_expr) expr =>
    let current_expr := current_expr ++ expr
    if bracketCount current_expr = 0 then (split_expr ++ [current_expr], [])
    else (split_expr, current_expr ++ [a, b])) (([] : List Str), ([] : Str))).1

end Brackets

section Expressions

variable (unicode : Char → Bool)

/-- `[\w.\-\/]` -/
def isSelectorChar (c : Char) : Bool := isReWord unicode c || c == '.' || c == '-' || c == '/'

/-- `([\w.\-\/]+)` -/
def wordPattern (n : Nat) : Pattern := .group n (.plus (.chars (isSelectorChar unicode)))

/-- `'[\w.\-\/]+'` -/
def quotedPattern : Pattern :=
  .seq (.text ['\'']) (.seq (.plus (.chars (isSelectorChar unicode))) (.text ['\'']))

/-- `\s?` -/
def spacePattern : Pattern := .opt (.chars isSpace)

/-- `has\(([\w.\-\/]+)\)` -/
def has_re : Pattern := .seq (.text "has(".toList) (.seq (wordPattern unicode 1) (.text [')']))

/-- `([\w.\-\/]+)\s?([=!])=\s?'([\w.\-\/]+)'` -/
def key_val_re : Pattern :=
  .seq (wordPattern unicode 1) (.seq spacePattern (.seq (.group 2 (.chars fun c => c == '=' || c == '!'))
    (.seq (.text ['=']) (.seq spacePattern
      (.seq (.text ['\'']) (.seq (wordPattern unicode 3) (.text ['\''])))))))

/-- `(,\s?'[\w.\-\/]+'\s?)*}` -/
def moreValuesPattern : Pattern :=
  .seq (.star (.seq (.text [',']) (.seq spacePattern (.seq (quotedPattern unicode) spacePattern))))
    (.text ['}'])

/-- `([\w.\-\/]+)\s(not\s)?in\s?{\s?'[\w.\-\/]+'\s?(,\s?'[\w.\-\/]+'\s?)*}` -/
def in_re : Pattern :=
  .seq (wordPattern unicode 1) (.seq (.chars isSpace)
    (.seq (.opt (.group 2 (.seq (.text "not".toList) (.chars isSpace)))) (.seq (.text "in".toList)
      (.seq spacePattern (.seq (.text ['{']) (.seq spacePattern
        (.seq (quotedPattern unicode) (.seq spacePattern (moreValuesPattern unicode)))))))))

/-- `'([\w.\-\/]*)'` -/
def values_re : Pattern :=
  .seq (.text ['\'']) (.seq (.group 1 (.star (.chars (isSelectorChar unicode)))) (.text ['\'']))

/-- `([\w.\-\/]+)\s?(contains|starts\swith|ends\swith)\s?'([\w.\-\/]+)'` -/
def str_re : Pattern :=
  .seq (wordPattern unicode 1) (.seq spacePattern
    (.seq (.group 2 (.alt (.text "contains".toList)
        (.alt (.seq (.text "starts".toList) (.seq (.chars isSpace) (.text "with".toList)))
          (.seq (.text "ends".toList) (.seq (.chars isSpace) (.text "with".toList))))))
      (.seq spacePattern (.seq (.text ['\'']) (.seq (wordPattern unicode 3) (.text ['\'']))))))

/-- `match.group(n)` -/
def groupText (groups : Pattern.Groups) (n : Nat) : Str := (Dict.get groups n).getD []

end Expressions

section Selectors

variable {O A : Type} [Fintype O] [DecidableEq O] [DecidableEq A] [TopologyPeers O]
  (unicode : Char → Bool) (addresses : O → Finset A) (peer_container : PeerContainer O)
  (ns : Option K8sNamespace) (is_namespace_selector : Bool)

/-- Sets of peers hold the addresses of IP blocks and all other peers themselves. -/
def points (peer : O) : PeerSet (O ⊕ A) :=
  if Peers.kind peer = .ipBlock then (addresses peer).map .inr else {.inl peer}

def ofPeers (peers : PeerSet O) : PeerSet (O ⊕ A) := peers.biUnion (points addresses)

/-- The peers that an expression is about. -/
def allPeers : PeerSet O :=
  if is_namespace_selector then peer_container.getPeersGroup false
  else peer_container.getNamespacePods ns

def selectorPeersWithKey (label : Str) : PeerSet O :=
  if is_namespace_selector then peer_container.getNamespacePodsWithKey (String.ofList label) false
  else peer_container.getPeersWithKey ns (String.ofList label) false

def selectorPeersWithLabel (key : Str) (values : List Str) (action : FilterActionType) : PeerSet O :=
  if is_namespace_selector then
    peer_container.getNamespacePodsWithLabel (String.ofList key) (values.map String.ofList) action
  else peer_container.getPeersWithLabel (String.ofList key) (values.map String.ofList) action

/-- The action of `contains`, `starts with` and `ends with`. -/
def substringAction (operator : Str) : FilterActionType :=
  if "starts".toList <+: operator then .StartWith
  else if "ends".toList <+: operator then .EndWith
  else .Contain

def parseSelectorExpr (expr : Str) : Except ParseError (PeerSet (O ⊕ A)) :=
  let expr := joinedWords (strip expr)
  let all_peers := ofPeers addresses (allPeers peer_container ns is_namespace_selector)
  let withLabel (key : Str) (values : List Str) (action : FilterActionType) :=
    all_peers ∩ ofPeers addresses
      (selectorPeersWithLabel peer_container is_namespace_selector key values action)
  if is_namespace_selector ∧ expr = "global()".toList then
    .ok (ofPeers addresses peer_container.getAllGlobalPeers)
  else if expr = "all()".toList then .ok all_peers
  else match (has_re unicode).reMatch expr with
  | some has_match => .ok (all_peers ∩ ofPeers addresses
      (selectorPeersWithKey peer_container ns is_namespace_selector (groupText has_match 1)))
  | none =>
  match (key_val_re unicode).reMatch expr with
  | some key_val_match =>
    let action := if groupText key_val_match 2 = ['='] then .In else .NotIn
    .ok (withLabel (groupText key_val_match 1) [groupText key_val_match 3] action)
  | none =>
  match (in_re unicode).reMatch expr with
  | some in_match =>
    let action := if Dict.get in_match 2 = none then .In else .NotIn
    let values := ((values_re unicode).findall expr.length expr).map fun m => groupText m 1
    .ok (withLabel (groupText in_match 1) values action)
  | none =>
  match (str_re unicode).reMatch expr with
  | some str_match =>
    .ok (withLabel (groupText str_match 1) [groupText str_match 3]
      (substringAction (groupText str_match 2)))
  | none => syntaxError "Invalid expression"

/-- The fuel bounds the depth of the recursion. -/
def recursiveParseLabelSelector : Nat → Str → Except ParseError (PeerSet (O ⊕ A))
  | 0, _ => throw .RecursionError
  | fuel + 1, label_selector =>
    let include_globals := !is_namespace_selector || decide ("global()".toList <:+: label_selector)
    stripSelector label_selector >>= fun label_selector =>
    let alternatives := splitSelector label_selector '|' '|'
    let conjuncts := splitSelector label_selector '&' '&'
    if alternatives.length ≠ 1 then
      alternatives.foldlM (fun res expr => (res ∪ ·) <$> recursiveParseLabelSelector fuel expr) ∅
    else if conjuncts.length ≠ 1 then
      conjuncts.foldlM (fun res expr => (res ∩ ·) <$> recursiveParseLabelSelector fuel expr)
        (ofPeers addresses (peer_container.getPeersGroup include_globals))
    else match label_selector with
    | [] => throw .IndexError
    | '!' :: rest =>
      let all_peers := if is_namespace_selector then peer_container.getPeersGroup include_globals
        else peer_container.getNamespacePods ns
      (ofPeers addresses all_peers \ ·) <$> recursiveParseLabelSelector fuel rest
    | _ => parseSelectorExpr unicode addresses peer_container ns is_namespace_selector
        (conjuncts.headD [])

/-- `_parse_label_selector`; each call of the recursion has a shorter text. -/
def parseLabelSelector (label_selector : Str) : Except ParseError (PeerSet (O ⊕ A)) := do
  syntaxErrorIf (label_selector = [] ∨ label_selector.all isSpace = true) "Missing selector"
  recursiveParseLabelSelector unicode addresses peer_container ns is_namespace_selector
    (label_selector.length + 1) label_selector

end Selectors
end Nca.Parsers
