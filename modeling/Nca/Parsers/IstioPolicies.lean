import Nca.Parsers.IstioGenericYamlParser
import Nca.Parsers.IstioPolicyYamlParser
import Nca.Parsers.IstioVirtualServiceYamlParser
import Nca.Parsers.K8sPolicies

/-!
Whole Istio authorization policies: what the parser makes of the resource of a policy. The policy is
about the workloads that its selector selects in its namespace, or in all namespaces if it is in the
root namespace, and about the requests that match one of its rules.
-/

namespace Nca.Parsers
open CoreDS Lib NetworkConfig Resources IstioGenericYamlParser

namespace IstioPolicyYamlParser

section Policy

variable {P E κ : Type} [Fintype E] [DecidableEq E] [TopologyPeers E] [ConnectivityProperties P E κ]
  (self : Components P E) (peer_container : PeerContainer E)

/-- Nothing stands for `NotImplemented`. -/
def parsePolicyAction (action : Yaml) : Option ActionType :=
  if action.isStr "ALLOW" then some .Allow
  else if action.isStr "DENY" then some .Deny
  else none

/-- Whatever the selector, no DNS entries are selected. -/
theorem updatePolicyPeers_group {peer_container : PeerContainer E} {ns dict_key : String}
    {workload_selector : Yaml} {res : PeerSet E} {e : E}
    (parsed : updatePolicyPeers peer_container ns workload_selector dict_key = .ok res) (member : e ∈ res) :
    e ∈ peer_container.getAllPeersGroup := by
  unfold updatePolicyPeers at parsed
  obtain ⟨selected_peers, selected, parsed⟩ := bind_ok.mp parsed
  have inside : e ∈ selected_peers := by
    split at parsed
    · rw [← Except.ok.inj parsed] at member
      exact (Finset.mem_inter.mp member).1
    · rwa [← Except.ok.inj parsed] at member
  split at selected
  · rw [← Except.ok.inj selected] at inside
    exact (Finset.mem_filter.mp inside).1
  · unfold parseWorkloadSelector at selected
    split at selected
    · rwa [← Except.ok.inj selected] at inside
    · obtain ⟨_, -, selected⟩ := bind_ok.mp selected
      obtain ⟨_, -, selected⟩ := bind_ok.mp selected
      obtain ⟨_, -, selected⟩ := bind_ok.mp selected
      obtain ⟨entries, -, selected⟩ := bind_ok.mp selected
      rw [← Except.ok.inj selected] at inside
      refine List.foldlRecOn entries _ (motive := fun acc : PeerSet E => e ∈ acc → _) id ?_ inside
      exact fun _ kept _ _ here => kept (Finset.mem_inter.mp here).1

/-- Peers that are no DNS entries. -/
abbrev MeshPeers (E : Type) [Peers E] : Type := {peers : PeerSet E // ∀ e ∈ peers, Peers.kind e ≠ .dnsEntry}

theorem updatePolicyPeers_noDns {peer_container : PeerContainer E} {ns dict_key : String}
    {workload_selector : Yaml} {res : PeerSet E}
    (parsed : updatePolicyPeers peer_container ns workload_selector dict_key = .ok res) :
    ∀ e ∈ res, Peers.kind e ≠ .dnsEntry :=
  fun _ member => (PeerContainer.mem_group.mp (updatePolicyPeers_group parsed member)).2

/-- The peers that the policy selects. -/
def selectPeers (ns : String) (pod_selector : Yaml) : Except ParseError (MeshPeers E) :=
  match parsed : updatePolicyPeers peer_container ns pod_selector "matchLabels" with
  | .error e => .error e
  | .ok peers => .ok ⟨peers, updatePolicyPeers_noDns parsed⟩

theorem parseIngressRule_inside {self : Components P E} {peer_container : PeerContainer E} {rule : Yaml}
    {selected_peers : PeerSet E} {res : IstioPolicyRule P}
    (parsed : parseIngressRule self peer_container rule selected_peers = .ok res) :
    Inside selected_peers true res.props := by
  unfold parseIngressRule at parsed
  iterate 9 obtain ⟨_, -, parsed⟩ := bind_ok.mp parsed
  intro x inside
  rw [← Except.ok.inj parsed] at inside
  exact (mem_limited.mp (ExactSet.mem_inter.mp inside).2).2

/-- Rules about the selected peers. -/
abbrev AuthorizationRules (P : Type) {E κ : Type} [ConnectivityProperties P E κ] (selected_peers : PeerSet E) :
    Type :=
  {rules : List (IstioPolicyRule P) // ∀ rule ∈ rules, Inside selected_peers true rule.props}

omit [Fintype E] [DecidableEq E] [TopologyPeers E] in
theorem authorizationRules_cons {selected_peers : PeerSet E} {res : IstioPolicyRule P}
    {rules : List (IstioPolicyRule P)} (first : Inside selected_peers true res.props)
    (others : ∀ rule ∈ rules, Inside selected_peers true rule.props) :
    ∀ rule ∈ res :: rules, Inside selected_peers true rule.props :=
  List.forall_mem_cons.mpr ⟨first, others⟩

/-- The loop over `rules`. -/
def parseRules (selected_peers : PeerSet E) :
    List Yaml → Except ParseError (AuthorizationRules P selected_peers)
  | [] => .ok ⟨[], List.forall_mem_nil _⟩
  | ingress_rule :: rest =>
    match parsed : parseIngressRule self peer_container ingress_rule selected_peers with
    | .error e => .error e
    | .ok res => do
      let rules ← parseRules selected_peers rest
      return ⟨res :: rules.1, authorizationRules_cons (parseIngressRule_inside parsed) rules.2⟩

/-- `policy_spec.get('rules', [])`, to loop over. -/
def specRules (policy_spec : Yaml) : Except ParseError (List Yaml) :=
  match Dict.get policy_spec.toDict "rules" with
  | none => .ok []
  | some rules => rules.iterate

/-- The lists of IP blocks that the parser reads in the rule, in its sources and in its conditions. -/
def ipBlockLists (rule : Yaml) : List (Yaml × Yaml) :=
  let has := fun (source : Yaml) key => (Dict.get source.toDict key).isSome
  let sources := (rule.field "from").toList.map (Yaml.field · "source")
  let ipSources := sources.filter fun source =>
    (has source "ipBlocks" || has source "notIpBlocks") &&
      !(["principals", "notPrincipals", "namespaces", "notNamespaces"].any (has source))
  let ipConditions := (rule.field "when").toList.filter fun condition =>
    (condition.field "key").isStr "source.ip"
  (ipSources.map fun source => (source.field "ipBlocks", source.field "notIpBlocks")) ++
    ipConditions.map fun condition => (condition.field "values", condition.field "notValues")

/-- The policy as the constructor makes it. -/
def initPolicy (policy_name ns : String) : IstioNetworkPolicy P where
  name := policy_name
  policy_namespace := some ns
  selected_peers := ∅
  affects_ingress := false
  affects_egress := false
  policy_kind := .IstioAuthorizationPolicy
  action := .Allow
  ingress_rules := []
  kind := rfl
  ingress_inside := List.forall_mem_nil _
  no_dns := fun _ member => absurd member (Finset.notMem_empty _)

/-- The code for policies with a specification. -/
def parseSpec (policy_name ns : String) (policy_spec : Yaml) : Except ParseError (IstioNetworkPolicy P) := do
  checkFieldsValidity policy_spec "istio authorization policy spec"
    [("action", ⟨0, some .str⟩), ("rules", ⟨0, some .list⟩), ("selector", ⟨0, some .dict⟩), ("provider", ⟨2, none⟩)]
    [("action", ["ALLOW", "DENY"])]
  let action ← policy_spec.get "action"
  -- the check has left the two actions only
  let action := if action.truthy then (parsePolicyAction action).getD .Allow else .Allow
  let pod_selector ← policy_spec.get "selector"
  let selected_peers ← selectPeers peer_container ns pod_selector
  let rules ← specRules policy_spec
  let ingress_rules ← parseRules self peer_container selected_peers.1 rules
  syntaxErrorIf (ingress_rules.1.isEmpty && decide (action = .Deny))
    "DENY action without rules is meaningless as it will never be triggered"
  return {
    name := policy_name
    policy_namespace := some ns
    selected_peers := selected_peers.1
    affects_ingress := true
    affects_egress := false
    policy_kind := .IstioAuthorizationPolicy
    has_ipv6_addresses := (rules.flatMap ipBlockLists).any fun lists =>
      hasIpv6Addresses (self.parse_ip_block lists.1 lists.2)
    action := action
    ingress_rules := ingress_rules.1
    kind := rfl
    ingress_inside := ingress_rules.2
    no_dns := selected_peers.2 }

/-- The policy, or nothing where the resource is not an authorization policy of Istio. -/
def parsePolicy (policy : Yaml) : Except ParseError (Option (IstioNetworkPolicy P)) := do
  match ← parseGenericYamlObjectsFields policy ["AuthorizationPolicy"]
    ["security.istio.io/v1beta1", "security.istio.io/v1"] "istio" false with
  | none => return none
  | some (policy_name, policy_ns) =>
    let ns := namespaceName (policy_ns.getD "")
    let policy_spec ← policy.get "spec"
    if policy_spec.isNull then return some (initPolicy policy_name ns)
    else return some (← parseSpec self peer_container policy_name ns policy_spec)

end Policy

section Meaning

/-- The resource is an authorization policy of Istio. -/
def IsAuthorizationPolicy (doc : Yaml) : Prop :=
  doc.field "kind" = .str "AuthorizationPolicy" ∧
    (doc.field "apiVersion" = .str "security.istio.io/v1beta1" ∨
      doc.field "apiVersion" = .str "security.istio.io/v1")

/-- The namespace of a resource, the default one where it names none. -/
def meshNamespace (doc : Yaml) : String := namespaceName (K8sPolicyYamlParser.documentNamespace doc)

/-- Policies allow unless they say that they deny. -/
def actionOf (policy_spec : Yaml) : ActionType :=
  if (policy_spec.field "action").isStr "DENY" then .Deny else .Allow

variable {P E κ : Type} [Fintype E] [DecidableEq E] [TopologyPeers E] [ConnectivityProperties P E κ]
  (components : Components P E) (peer_container : PeerContainer E)

/-- The peer is a workload that the policy is about. -/
def SelectsWorkload (doc : Yaml) (e : E) : Prop :=
  e ∈ peer_container.peer_set ∧ Peers.kind e ≠ .dnsEntry ∧
    Applies (meshNamespace doc) ((doc.field "spec").field "selector") "matchLabels" e

/-- One of the rules of the policy matches the request, whatever its destination. -/
def MatchesRequest (policy_spec : Yaml) (x : Flow E κ) : Prop :=
  ∃ rule ∈ (policy_spec.field "rules").toList, RuleAdmits components peer_container rule.toDict Finset.univ x

/-- The policy that is parsed from a resource says what the specification of the resource says. -/
structure AuthorizationOf (doc : Yaml) (policy : IstioNetworkPolicy P) : Prop where
  kind : IsAuthorizationPolicy doc
  name : policy.fullName = meshNamespace doc ++ "/" ++ K8sPolicyYamlParser.documentName doc
  idle : (doc.field "spec").isNull = true → policy.selected_peers = ∅
  action : (doc.field "spec").isNull = false → policy.action = actionOf (doc.field "spec")
  selected : (doc.field "spec").isNull = false →
    ∀ e, e ∈ policy.selected_peers ↔ SelectsWorkload peer_container doc e
  rules : (doc.field "spec").isNull = false → ∀ x : Flow E κ, x.protocol = tcp →
    ((∃ rule ∈ policy.ingress_rules, x ∈ rule.props) ↔
      x.dst ∈ policy.selected_peers ∧ MatchesRequest components peer_container (doc.field "spec") x)

end Meaning

section Fields

variable {doc : Yaml}

theorem meshNamespace_ok {metadata : Yaml} {spaced : Bool} (has : metadata.has "namespace" = .ok spaced)
    (same : doc.field "metadata" = metadata) :
    namespaceName ((if "istio" ≠ "calico" ∧ (!spaced) = true then some "default"
      else match metadata.field "namespace" with
        | .str ns => some ns
        | _ => none).getD "") = meshNamespace doc := by
  unfold meshNamespace K8sPolicyYamlParser.documentNamespace
  rw [same]
  cases spaced with
  | true =>
    rw [if_neg (by simp)]
    cases metadata.field "namespace" with
    | str s => rfl
    | _ => rfl
  | false =>
    rw [if_pos (by simp)]
    have missing : metadata.field "namespace" = .null := by
      cases metadata with
      | dict entries =>
        have none : Dict.get entries "namespace" = none := by simpa [Yaml.has] using has
        simp [Yaml.field, none]
      | _ => rfl
    rw [missing]
    rfl

theorem parseObjectsFields_ok {res : Option (String × Option String)}
    (parsed : parseGenericYamlObjectsFields doc ["AuthorizationPolicy"]
      ["security.istio.io/v1beta1", "security.istio.io/v1"] "istio" false = .ok res) :
    (res.isSome = true ↔ IsAuthorizationPolicy doc) ∧ ∀ name ns, res = some (name, ns) →
      name = K8sPolicyYamlParser.documentName doc ∧ namespaceName (ns.getD "") = meshNamespace doc := by
  unfold parseGenericYamlObjectsFields at parsed
  obtain ⟨_, -, parsed⟩ := bind_ok.mp parsed
  obtain ⟨kind, kindRead, parsed⟩ := bind_ok.mp parsed
  have kindRead := (Yaml.get_ok.mp kindRead).2
  simp only [List.any_cons, List.any_nil, Bool.or_false] at parsed
  split at parsed
  · rename_i other
    obtain rfl := Except.ok.inj parsed
    refine ⟨iff_of_false Bool.false_ne_true ?_, nofun⟩
    intro ⟨same, _⟩
    rw [← kindRead, same] at other
    simp [Yaml.isStr] at other
  · rename_i right
    obtain ⟨api_version, versionRead, parsed⟩ := bind_ok.mp parsed
    have versionRead := (Yaml.get_ok.mp versionRead).2
    obtain ⟨layered, keyword, parsed⟩ := bind_ok.mp parsed
    cases layered with
    | false =>
      obtain rfl := Except.ok.inj parsed
      refine ⟨iff_of_false Bool.false_ne_true ?_, nofun⟩
      intro ⟨_, version⟩
      rw [versionRead] at version
      rcases version with rfl | rfl
      · cases keyword
      · cases keyword
    | true =>
      obtain ⟨_, valid, parsed⟩ := bind_ok.mp parsed
      obtain ⟨metadata, metadataRead, parsed⟩ := bind_ok.mp parsed
      have metadataRead := (Yaml.get_ok.mp metadataRead).2
      obtain ⟨_, -, parsed⟩ := bind_ok.mp parsed
      obtain ⟨name, nameRead, parsed⟩ := bind_ok.mp parsed
      obtain ⟨spaced, spaceRead, parsed⟩ := bind_ok.mp parsed
      obtain rfl := Except.ok.inj parsed
      refine ⟨iff_of_true rfl ⟨?_, ?_⟩, ?_⟩
      · rw [kindRead]
        exact Yaml.isStr_eq (by simpa using right)
      · obtain ⟨entries, rfl, fields, -⟩ := checkFieldsValidity_ok.mp valid
        have field := fields ("apiVersion", ⟨1, some .str⟩) (by simp)
        obtain ⟨v, among, same⟩ := field.listed rfl (versionRead ▸ Yaml.truthy_of_has (by decide) keyword)
        rw [same]
        simp only [List.mem_cons, List.not_mem_nil, or_false] at among
        exact among.imp (congrArg Yaml.str) (congrArg Yaml.str)
      · intro name' ns equal
        obtain ⟨rfl, rfl⟩ := Prod.mk.inj (Option.some.inj equal)
        refine ⟨?_, meshNamespace_ok spaceRead metadataRead⟩
        unfold K8sPolicyYamlParser.documentName
        rw [metadataRead, (Yaml.get_ok.mp nameRead).2]

end Fields

section Parsed

variable {P E κ : Type} [Fintype E] [DecidableEq E] [TopologyPeers E] [ConnectivityProperties P E κ]
  {self : Components P E} {peer_container : PeerContainer E} {entries : List (String × Yaml)}

theorem specRules_ok {allowed_values : List (String × List String)} {rules : List Yaml}
    (field : FieldValid entries allowed_values "rules" ⟨0, some .list⟩)
    (read : specRules (.dict entries) = .ok rules) : ((Yaml.dict entries).field "rules").toList = rules := by
  have value : (Yaml.dict entries).field "rules" = (Dict.get entries "rules").getD .null := rfl
  unfold specRules at read
  rw [value]
  cases found : Dict.get entries "rules" with
  | none =>
    rw [Yaml.toDict, found] at read
    exact Except.ok.inj read
  | some value =>
    rw [Yaml.toDict, found] at read
    have typed := field.typed .list rfl value found
    cases value with
    | list items => exact Except.ok.inj read
    | null => cases read
    | _ => cases typed rfl

theorem action_ok {allowed_values : List (String × List String)}
    (field : FieldValid entries allowed_values "action" ⟨0, some .str⟩)
    (listed : Dict.get allowed_values "action" = some ["ALLOW", "DENY"]) :
    (if ((Yaml.dict entries).field "action").truthy
      then (parsePolicyAction ((Yaml.dict entries).field "action")).getD .Allow else .Allow) =
      actionOf (.dict entries) := by
  unfold actionOf
  cases given : ((Yaml.dict entries).field "action").truthy with
  | true =>
    obtain ⟨v, among, same⟩ := field.listed listed given
    rw [same]
    simp only [List.mem_cons, List.not_mem_nil, or_false] at among
    rcases among with rfl | rfl
    · rfl
    · rfl
  | false =>
    have other : ((Yaml.dict entries).field "action").isStr "DENY" = false := by
      rw [← Bool.not_eq_true]
      intro deny
      rw [Yaml.isStr_eq deny] at given
      cases given
    rw [if_neg Bool.false_ne_true, other, if_neg Bool.false_ne_true]

variable {selected_peers : PeerSet E} {x : Flow E κ}

/-- The TCP connections of a parsed rule. -/
theorem parseIngressRule_matches {rule : Yaml} {res : IstioPolicyRule P}
    (selected : selected_peers ⊆ peer_container.getAllPeersGroup true true) (overTcp : x.protocol = tcp)
    (parsed : parseIngressRule self peer_container rule selected_peers = .ok res) :
    x ∈ res.props ↔ x.dst ∈ selected_peers ∧ RuleAdmits self peer_container rule.toDict Finset.univ x := by
  unfold parseIngressRule at parsed
  obtain ⟨_, -, parsed⟩ := bind_ok.mp parsed
  obtain ⟨_, fields, parsed⟩ := bind_ok.mp parsed
  obtain ⟨entries, rfl, -⟩ := checkFieldsValidity_ok.mp fields
  obtain ⟨_, present, parsed⟩ := bind_ok.mp parsed
  have proper : ∀ key ∈ ["from", "to", "when"], Dict.get entries key ≠ some .null := fun key listed =>
    validateExistingKey_ok.mp (forM_ok.mp present key listed)
  obtain ⟨_, fromRead, parsed⟩ := bind_ok.mp parsed
  obtain ⟨res_peers, sources, parsed⟩ := bind_ok.mp parsed
  obtain ⟨_, toRead, parsed⟩ := bind_ok.mp parsed
  obtain ⟨conn_props, operations, parsed⟩ := bind_ok.mp parsed
  obtain ⟨_, whenRead, parsed⟩ := bind_ok.mp parsed
  obtain ⟨acc, conditions, parsed⟩ := bind_ok.mp parsed
  obtain rfl := Except.ok.inj parsed
  show x ∈ (conn_props ∩ _ : P) ↔ x.dst ∈ selected_peers ∧ RuleAdmits self peer_container entries Finset.univ x
  rw [ExactSet.mem_inter, mem_limited, when_admits (proper _ (by simp)) (Except.ok.inj whenRead) conditions,
    ruleAdmits_iff, ← from_admits (getKeyArray_ok (proper _ (by simp)) fromRead) sources]
  by_cases ends : x.src ∈ res_peers ∧ x.dst ∈ selected_peers
  · have src : x.src ∈ peer_container.getAllPeersGroup true true := by
      obtain group | ip := PeerContainer.mem_group_ips.mp (from_inside sources ends.1)
      · exact PeerContainer.mem_group_all.mpr (Or.inl (PeerContainer.mem_group.mp group).1)
      · exact PeerContainer.mem_group_all.mpr (Or.inr ip)
    rw [to_admits (getKeyArray_ok (proper _ (by simp)) toRead) operations src (selected ends.2)]
    simp [ends, overTcp]
  · rw [not_and] at ends
    simp only [Finset.mem_univ, true_and]
    tauto

theorem parseRules_matches {rules : List Yaml} {made : AuthorizationRules P selected_peers}
    (selected : selected_peers ⊆ peer_container.getAllPeersGroup true true) (overTcp : x.protocol = tcp)
    (parsed : parseRules self peer_container selected_peers rules = .ok made) :
    (∃ rule ∈ made.1, x ∈ rule.props) ↔ x.dst ∈ selected_peers ∧
      ∃ rule ∈ rules, RuleAdmits self peer_container rule.toDict Finset.univ x := by
  induction rules generalizing made with
  | nil =>
    obtain rfl := Except.ok.inj parsed
    simp
  | cons ingress_rule rest ih =>
    unfold parseRules at parsed
    split at parsed
    · cases parsed
    · rename_i res first
      obtain ⟨others, following, parsed⟩ := bind_ok.mp parsed
      obtain rfl := Except.ok.inj parsed
      show (∃ rule ∈ res :: others.1, x ∈ rule.props) ↔ _
      rw [List.exists_mem_cons_iff, List.exists_mem_cons_iff, parseIngressRule_matches selected overTcp first,
        ih following, and_or_left]

theorem selectPeers_ok {ns : String} {pod_selector : Yaml} {made : MeshPeers E}
    (parsed : selectPeers peer_container ns pod_selector = .ok made) :
    updatePolicyPeers peer_container ns pod_selector "matchLabels" = .ok made.1 := by
  unfold selectPeers at parsed
  split at parsed
  · cases parsed
  · rename_i peers updated
    obtain rfl := Except.ok.inj parsed
    exact updated

theorem parseSpec_reads {doc : Yaml} {policy_name : String} {policy : IstioNetworkPolicy P}
    (kind : IsAuthorizationPolicy doc) (given : (doc.field "spec").isNull = false)
    (parsed : parseSpec self peer_container policy_name (meshNamespace doc) (doc.field "spec") = .ok policy)
    (own : policy_name = K8sPolicyYamlParser.documentName doc) :
    AuthorizationOf self peer_container doc policy := by
  unfold parseSpec at parsed
  obtain ⟨_, checked, parsed⟩ := bind_ok.mp parsed
  obtain ⟨action, actionRead, parsed⟩ := bind_ok.mp parsed
  obtain ⟨pod_selector, selectorRead, parsed⟩ := bind_ok.mp parsed
  obtain ⟨selected_peers, selected, parsed⟩ := bind_ok.mp parsed
  obtain ⟨rules, rulesRead, parsed⟩ := bind_ok.mp parsed
  obtain ⟨ingress_rules, made, parsed⟩ := bind_ok.mp parsed
  obtain ⟨_, -, parsed⟩ := bind_ok.mp parsed
  obtain rfl := Except.ok.inj parsed
  obtain ⟨entries, spec, fields, -⟩ := checkFieldsValidity_ok.mp checked
  have actionRead := (Yaml.get_ok.mp actionRead).2
  have selectorRead := (Yaml.get_ok.mp selectorRead).2
  have dict : pod_selector = .null ∨ ∃ entries, pod_selector = .dict entries := by
    have field := fields ("selector", ⟨0, some .dict⟩) (by simp)
    rw [spec] at selectorRead
    have value : (Yaml.dict entries).field "selector" = (Dict.get entries "selector").getD .null := rfl
    cases found : Dict.get entries "selector" with
    | none =>
      rw [← selectorRead, value, found]
      exact Or.inl rfl
    | some selector =>
      rw [← selectorRead, value, found]
      have typed := field.typed .dict rfl selector found
      cases selector with
      | null => exact Or.inl rfl
      | dict entries => exact Or.inr ⟨entries, rfl⟩
      | _ => cases typed rfl
  have members : ∀ e, e ∈ selected_peers.1 ↔ SelectsWorkload peer_container doc e := by
    intro e
    unfold SelectsWorkload
    rw [selectorRead]
    exact updatePolicyPeers_ok dict (selectPeers_ok selected)
  have group : selected_peers.1 ⊆ peer_container.getAllPeersGroup true true := fun e member =>
    PeerContainer.mem_group_all.mpr (Or.inl ((members e).mp member).1)
  exact {
    kind := kind
    name := by rw [← own]; rfl
    idle := fun missing => absurd (missing.symm.trans given) (by decide)
    action := by
      intro _
      rw [← actionRead, spec]
      exact action_ok (fields ("action", ⟨0, some .str⟩) (by simp)) rfl
    selected := fun _ => members
    rules := by
      intro _ x overTcp
      unfold MatchesRequest
      rw [spec] at rulesRead ⊢
      rw [specRules_ok (fields ("rules", ⟨0, some .list⟩) (by simp)) rulesRead]
      exact parseRules_matches group overTcp made }

theorem parsePolicy_ok {doc : Yaml} {res : Option (IstioNetworkPolicy P)}
    (parsed : parsePolicy self peer_container doc = .ok res) :
    (res = none → ¬ IsAuthorizationPolicy doc) ∧
      ∀ policy, res = some policy → AuthorizationOf self peer_container doc policy := by
  unfold parsePolicy at parsed
  obtain ⟨fields, named, parsed⟩ := bind_ok.mp parsed
  obtain ⟨kind, names⟩ := parseObjectsFields_ok named
  cases fields with
  | none =>
    obtain rfl := Except.ok.inj parsed
    exact ⟨fun _ policy => Bool.false_ne_true (kind.mpr policy), nofun⟩
  | some fields =>
    obtain ⟨policy_name, policy_ns⟩ := fields
    obtain ⟨policy_spec, specRead, parsed⟩ := bind_ok.mp parsed
    obtain ⟨own, space⟩ := names _ _ rfl
    rw [← (Yaml.get_ok.mp specRead).2, space] at parsed
    split at parsed
    · rename_i missing
      obtain rfl := Except.ok.inj parsed
      refine ⟨nofun, ?_⟩
      intro policy same
      obtain rfl := Option.some.inj same
      have given : (doc.field "spec").isNull ≠ false := by simp [missing]
      exact ⟨kind.mp rfl, by rw [← own]; rfl, fun _ => rfl, fun given' => absurd given' given,
        fun given' => absurd given' given, fun given' => absurd given' given⟩
    · rename_i given
      obtain ⟨policy, made, parsed⟩ := bind_ok.mp parsed
      obtain rfl := Except.ok.inj parsed
      refine ⟨nofun, ?_⟩
      intro policy' same
      obtain rfl := Option.some.inj same
      exact parseSpec_reads (kind.mp rfl) (Bool.not_eq_true _ ▸ given) made own

end Parsed

end IstioPolicyYamlParser
end Nca.Parsers
