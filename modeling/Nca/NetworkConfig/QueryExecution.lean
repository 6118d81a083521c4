import Nca.CoreDS.PeerDomains
import Nca.CoreDS.HyperCubeContainment

/-!
Running queries. A query sets the domains of the peers to its own peers and reduces the connections
of every rule of its configurations; when it has ended, the domains are reset and every rule gets
back the copy that was saved. Configurations may share policies, and policies may share rules.
-/

namespace Nca.NetworkConfig
open CoreDS Lib Python Space CanonicalHyperCubeSet

/-- The connections of a rule and their saved copy. -/
structure RuleProps (L : Type) where
  props : CanonicalHyperCubeSet L
  props_copy : CanonicalHyperCubeSet L

/-- The rules of a policy, by their names. -/
structure PolicyRules (ι : Type) where
  ingress_rules : List ι
  egress_rules : List ι

/-- A configuration with its peers and the names of its policies. -/
structure QueriedConfig (κ : Type) where
  name : String
  peer_set : List IndexedPeer
  policies : List κ

/-- What queries share: the dimensions with their domains, all rules and all policies. -/
structure QueryState (L : Type) [ExactSet L String] (ι κ : Type) where
  dimensions : Space L
  rules : ι → RuleProps L
  props_in_sync : κ → Bool

/-- A query; when it is executed it reads the rules and brings policies in sync. -/
structure Query (L : Type) [ExactSet L String] (ι κ A : Type) where
  configs : List (QueriedConfig κ)
  some_config : configs ≠ []
  outputFormat : String
  supported_output_formats : List String
  execute : QueryState L ι κ → Except Failure (A × (κ → Bool))

inductive QueryResult (A : Type) where
  | not_executed (output : String)
  | executed (answer : A)

variable {L ι κ A : Type} [ExactSet L String] [DecidableEq ι] [DecidableEq κ]

/-- `get_all_peers_group(True, True, True)` of all configurations of a query. -/
def Query.peerSet (query : Query L ι κ A) : List IndexedPeer :=
  query.configs.flatMap fun config => config.peer_set ++ [IndexedPeer.allIpsBlock]

omit [DecidableEq ι] [DecidableEq κ] in
theorem Query.peerInterval_valid {query : Query L ι κ A} {domain : CanonicalIntervalSet}
    (found : BasePeerSet.getPeerIntervalOf query.peerSet = .ok domain) :
    domain.Canonical ∧ ∃ n, n ∈ domain := by
  obtain ⟨_, found', canonical, members⟩ := BasePeerSet.getPeerIntervalOf_spec query.peerSet
  obtain rfl := Except.ok.inj (found.symm.trans found')
  refine ⟨canonical, 0, (members 0).mpr ⟨IndexedPeer.allIpsBlock, ?_, ⟨0, 4294967295⟩, ?_, ?_⟩⟩
  · obtain ⟨config, rest, configs⟩ := List.exists_cons_of_ne_nil query.some_config
    exact List.mem_flatMap.mpr ⟨config, configs ▸ List.mem_cons_self, by simp⟩
  · exact List.mem_cons_self
  · exact ⟨Int.le_refl _, by decide⟩

/-- The dimensions with the domains of peers set to those of the query. -/
def Query.setDomains (query : Query L ι κ A) (dimensions : Space L) : Except Failure (Space L) :=
  match found : BasePeerSet.getPeerIntervalOf query.peerSet with
  | .error e => .error e
  | .ok domain =>
    have valid := Query.peerInterval_valid found
    .ok ((dimensions.setDomain "src_peers" domain valid.1 valid.2).setDomain "dst_peers" domain
      valid.1 valid.2)

/-- One turn of the loop of `reorganize_props_by_new_domains`. -/
def reorganizeRule (dimensions : Space L) (rules : ι → RuleProps L) (rule : ι) :
    Except Failure (ι → RuleProps L) := do
  if !(rules rule).props_copy.bool then
    let props ← reduceActiveDimensions dimensions (rules rule).props
    return Function.update rules rule ⟨props, (rules rule).props⟩
  else return rules

/-- One turn of the loop of `restore_props`. -/
def restoreRule (dimensions : Space L) (rules : ι → RuleProps L) (rule : ι) : ι → RuleProps L :=
  if (rules rule).props_copy.bool then
    Function.update rules rule ⟨(rules rule).props_copy, init dimensions⟩
  else rules

section Policies
variable (policies : κ → PolicyRules ι)

def reorganizePropsByNewDomains (state : QueryState L ι κ) (policy : κ) :
    Except Failure (QueryState L ι κ) := do
  let rules ← ((policies policy).ingress_rules ++ (policies policy).egress_rules).foldlM
    (reorganizeRule state.dimensions) state.rules
  return { state with
    rules := rules
    props_in_sync := Function.update state.props_in_sync policy false }

def restoreProps (state : QueryState L ι κ) (policy : κ) : QueryState L ι κ :=
  { state with
    rules := ((policies policy).ingress_rules ++ (policies policy).egress_rules).foldl
      (restoreRule state.dimensions) state.rules
    props_in_sync := Function.update state.props_in_sync policy false }

/-- What happens before a query is executed. -/
def Query.prepare (query : Query L ι κ A) (state : QueryState L ι κ) :
    Except Failure (QueryState L ι κ) := do
  let dimensions ← query.setDomains state.dimensions
  query.configs.foldlM (fun state config =>
    config.policies.foldlM (reorganizePropsByNewDomains policies) state)
    { state with dimensions := dimensions }

/-- What happens after a query was executed; the dimensions are reset to the default ones. -/
def Query.finish (default : Space L) (query : Query L ι κ A) (state : QueryState L ι κ) :
    QueryState L ι κ :=
  query.configs.foldl (fun state config => config.policies.foldl (restoreProps policies) state)
    { state with dimensions := default }

/-- `execute_and_compute_output_in_required_format` without the formatting of the output. -/
def Query.run (default : Space L) (query : Query L ι κ A) (state : QueryState L ι κ) :
    Except Failure (QueryResult A × QueryState L ι κ) := do
  match query.configs.find? fun config => config.peer_set.isEmpty with
  | some config =>
    return (.not_executed s!"Error: Network configuration '{config.name}' does not have any peers. Can not run Query", state)
  | none =>
    if query.outputFormat ∉ query.supported_output_formats then return (.not_executed "", state)
    let running ← query.prepare policies state
    let (answer, props_in_sync) ← query.execute running
    return (.executed answer,
      query.finish policies default { running with props_in_sync := props_in_sync })

/-- Queries, one after the other. -/
def runQueries (default : Space L) (queries : List (Query L ι κ A)) (state : QueryState L ι κ) :
    Except Failure (QueryState L ι κ) :=
  queries.foldlM (fun state query => do
    let (_, state) ← query.run policies default state
    return state) state

end Policies
end Nca.NetworkConfig
