import Nca.Lib.Pattern
import Nca.NetworkConfig.PeerLookups

/-!
The parser of K8s network policies: the label selectors and the peers of a rule.
-/

namespace Nca.Parsers
open CoreDS Lib NetworkConfig

section Syntax

def isLowerAlnum (c : Char) : Bool := decide ('a' ≤ c ∧ c ≤ 'z') || c.isDigit

/-- `[a-z0-9]([-a-z0-9]*[a-z0-9])?` -/
def dnsLabel : Pattern :=
  .seq (.chars isLowerAlnum)
    (.opt (.seq (.star (.chars fun c => c == '-' || isLowerAlnum c)) (.chars isLowerAlnum)))

/-- `[a-z0-9]([-a-z0-9]*[a-z0-9])?(\.[a-z0-9]([-a-z0-9]*[a-z0-9])?)*` -/
def dnsSubdomain : Pattern := .seq dnsLabel (.star (.seq (.text ['.']) dnsLabel))

def isLabelChar (c : Char) : Bool := c == '-' || c.isAlphanum || c == '_' || c == '.'

/-- `([A-Za-z0-9][-A-Za-z0-9_.]*)?[A-Za-z0-9]` -/
def labelName : Pattern :=
  .seq (.opt (.seq (.chars Char.isAlphanum) (.star (.chars isLabelChar)))) (.chars Char.isAlphanum)

def checkDnsSubdomainName (value : String) : Except ParseError Unit := do
  syntaxErrorIf (value.length > 253)
    s!"invalid subdomain name : \"{value}\", DNS subdomain name must be no more than 253 characters"
  syntaxErrorIf (!dnsSubdomain.fullmatch value.toList)
    s!"invalid DNS subdomain name : \"{value}\", it must consist of lower case alphanumeric characters, \"-\" or \".\", and must start and end with an alphanumeric character"

def checkLabelKeySyntax (key_label : String) : Except ParseError Unit := do
  let segments := key_label.toList.splitOn '/'
  syntaxErrorIf (segments.length > 2)
    s!"Invalid key \"{key_label}\", a valid label key may have two segments: an optional prefix and name, separated by a slash (/)."
  let name ← match segments with
    | [domain, name] => do
      syntaxErrorIf (domain = []) s!"invalid key \"{key_label}\", prefix part must be non-empty"
      checkDnsSubdomainName (String.ofList domain)
      pure name
    | _ => pure key_label.toList
  syntaxErrorIf (name = []) s!"invalid key \"{key_label}\", name segment is required in label key"
  syntaxErrorIf (name.length > 63)
    s!"invalid key \"{key_label}\", a label key name must be no more than 63 characters"
  syntaxErrorIf (!labelName.fullmatch name)
    s!"invalid key \"{key_label}\", a label key name part must consist of alphanumeric characters, \"-\", \"_\" or \".\", and must start and end with an alphanumeric character"

/-- The value, which is a string if it passes the checks. -/
def checkLabelValueSyntax (val : Yaml) (key : String) : Except ParseError String := do
  match val with
  | .null => syntaxError s!"label value for \"{key}\" can not be null"
  | .str val =>
    syntaxErrorIf (val ≠ "" ∧ val.length > 63)
      s!"invalid value \"{val}\" for \"{key}\", a label value must be no more than 63 characters"
    syntaxErrorIf (val ≠ "" ∧ !labelName.opt.fullmatch val.toList)
      s!"invalid value \"{val}\" for \"{key}\", value label must be an empty string or consist of alphanumeric characters, \"-\", \"_\" or \".\", and must start and end with an alphanumeric character "
    return val
  | _ => syntaxError s!"label value for \"{key}\" must be a string"

end Syntax

namespace K8sPolicyYamlParser

variable {E : Type} [Fintype E] [DecidableEq E] [TopologyPeers E]
  (peer_container : PeerContainer E) (ns : K8sNamespace)

/-- An operator that is empty passes the checks; intersecting with its result fails. -/
def parseLabelSelectorRequirement (requirement : Yaml) (namespace_selector : Bool) :
    Except ParseError (PeerSet E) := do
  checkFieldsValidity requirement "LabelSelectorRequirement"
    [("key", ⟨1, some .str⟩), ("operator", ⟨1, some .str⟩), ("values", ⟨0, some .list⟩)]
    [("operator", ["In", "NotIn", "Exists", "DoesNotExist"])]
  let key ← (← requirement.get "key").asStr
  let operator ← (← requirement.get "operator").asStr
  checkLabelKeySyntax key
  let values ← requirement.get "values"
  if operator = "In" ∨ operator = "NotIn" then
    syntaxErrorIf (!values.truthy) "A requirement with In/NotIn operator but without values"
    let values ← (← values.asList).mapM fun value => checkLabelValueSyntax value key
    let action : FilterActionType := if operator = "In" then .In else .NotIn
    if namespace_selector then return peer_container.getNamespacePodsWithLabel key values action
    else return peer_container.getPeersWithLabel key values action
  else if operator = "Exists" ∨ operator = "DoesNotExist" then
    syntaxErrorIf (values.truthy = true)
      "A requirement with Exist/DoesNotExist operator must not have values"
    let does_not_exist := decide (operator = "DoesNotExist")
    if namespace_selector then return peer_container.getNamespacePodsWithKey key does_not_exist
    else return peer_container.getPeersWithKey (some ns) key does_not_exist
  else throw .AttributeError

/-- One turn of the loop over `matchLabels`. -/
def restrictToLabel (namespace_selector : Bool) (res : PeerSet E) (entry : String × Yaml) :
    Except ParseError (PeerSet E) := do
  checkLabelKeySyntax entry.1
  let val ← checkLabelValueSyntax entry.2 entry.1
  if namespace_selector then
    return res ∩ peer_container.getNamespacePodsWithLabel entry.1 [val]
  else return res ∩ peer_container.getPeersWithLabel entry.1 [val]

/-- One turn of the loop over `matchExpressions`. -/
def restrictToRequirement (namespace_selector : Bool) (res : PeerSet E) (requirement : Yaml) :
    Except ParseError (PeerSet E) :=
  (res ∩ ·) <$> parseLabelSelectorRequirement peer_container ns requirement namespace_selector

def parseLabelSelector (label_selector : Yaml) (namespace_selector : Bool := false) :
    Except ParseError (PeerSet E) := do
  if label_selector.isNull then return ∅
  else if !label_selector.truthy then return peer_container.getAllPeersGroup
  else
    checkFieldsValidity label_selector "pod/namespace selector"
      [("matchLabels", ⟨0, some .dict⟩), ("matchExpressions", ⟨0, some .list⟩)]
    let match_labels ← (← label_selector.get "matchLabels").asDict
    let res ← match_labels.foldlM (restrictToLabel peer_container namespace_selector)
      peer_container.getAllPeersGroup
    let match_expressions ← (← label_selector.get "matchExpressions").asList
    match_expressions.foldlM (restrictToRequirement peer_container ns namespace_selector) res

variable (parse_ip_block : Yaml → Except ParseError (PeerSet E))

/-- The peers of a namespace selector; the namespace of the policy where there is none. -/
def namespacePeers (ns_selector : Yaml) : Except ParseError (PeerSet E) :=
  if ns_selector.isNull then return peer_container.getNamespacePods (some ns)
  else parseLabelSelector peer_container ns ns_selector true

def parsePeer (peer : Yaml) : Except ParseError (PeerSet E) := do
  checkFieldsValidity peer "NetworkPolicyPeer" [("podSelector", ⟨0, some .dict⟩),
    ("namespaceSelector", ⟨0, some .dict⟩), ("ipBlock", ⟨0, some .dict⟩)]
  let pod_selector ← peer.get "podSelector"
  let ns_selector ← peer.get "namespaceSelector"
  let ip_block ← peer.get "ipBlock"
  syntaxErrorIf (pod_selector.isNull && ns_selector.isNull && ip_block.isNull)
    "A NetworkPolicyPeer must have at least one field"
  if !ip_block.isNull then
    syntaxErrorIf (!pod_selector.isNull || !ns_selector.isNull)
      "If ipBlock is set then neither of podSelector or namespaceSelector can be"
    parse_ip_block ip_block
  else
    let res ← namespacePeers peer_container ns ns_selector
    if pod_selector.isNull then return res
    else
      let selected_pods ← parseLabelSelector peer_container ns pod_selector
      return selected_pods ∩ res

end K8sPolicyYamlParser
end Nca.Parsers
