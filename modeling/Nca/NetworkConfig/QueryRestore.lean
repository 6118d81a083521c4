import Nca.NetworkConfig.QueryExecution

/-!
What queries keep. While a query runs, the connections of every rule have the same points within
the domains of the query; after it, every rule has the connections that it had before.
-/

namespace Nca.NetworkConfig
open CoreDS Lib Python Space CanonicalHyperCubeSet

variable {L ι κ A : Type} [ExactSet L String] [DecidableEq ι] [DecidableEq κ]

/-- No query runs: the domains are the default ones, and no copy is saved. -/
structure Rested (default : Space L) (state : QueryState L ι κ) : Prop where
  dimensions : state.dimensions = default
  canonical : ∀ rule, Canonical default (state.rules rule).props
  unsaved : ∀ rule, (state.rules rule).props_copy.bool = false

/-- The connections of a rule are as before, or saved and replaced by ones with the same points. -/
def Reorganized (dimensions : Space L) (visited : List ι) (before : ι → RuleProps L) (rule : ι)
    (now : RuleProps L) : Prop :=
  (now.props = (before rule).props ∧ now.props_copy.bool = false) ∨
    (rule ∈ visited ∧ now.props_copy = (before rule).props ∧ now.props_copy.bool = true ∧
      ∀ p, Point dimensions p → (Has now.props p ↔ Has (before rule).props p))

/-- The rules that a query visits. -/
def Query.visited (policies : κ → PolicyRules ι) (query : Query L ι κ A) : List ι :=
  query.configs.flatMap fun config => config.policies.flatMap fun policy =>
    (policies policy).ingress_rules ++ (policies policy).egress_rules

/-- The domains of peers cover the peers of the configurations. -/
def Query.Covers (query : Query L ι κ A) (dimensions : Space L) : Prop :=
  ∀ dim_name ∈ ["src_peers", "dst_peers"], ∀ config ∈ query.configs, ∀ peer ∈ config.peer_set,
    ∀ interval ∈ peer.intervals, ∀ n ∈ interval, Item.int n ∈ dimensions.domain dim_name

variable {default dimensions : Space L} {policies : κ → PolicyRules ι} {query : Query L ι κ A}
  {state : QueryState L ι κ} {before now : ι → RuleProps L} {visited : List ι} {rule : ι}

section Reorganize

omit [DecidableEq ι] [DecidableEq κ] in
theorem setDomains_spec (query : Query L ι κ A) (dimensions : Space L) :
    Returns (query.setDomains dimensions) fun after =>
      after.all_dimensions_list = dimensions.all_dimensions_list ∧ query.Covers after := by
  obtain ⟨domain, found, _, members⟩ := BasePeerSet.getPeerIntervalOf_spec query.peerSet
  have valid := Query.peerInterval_valid found
  refine ⟨(dimensions.setDomain "src_peers" domain valid.1 valid.2).setDomain "dst_peers" domain
    valid.1 valid.2, ?_, rfl, ?_⟩
  · unfold Query.setDomains
    split
    · rename_i failed
      rw [found] at failed
      cases failed
    · rename_i domain' found'
      obtain rfl := Except.ok.inj (found.symm.trans found')
      rfl
  · intro dim_name named config configured peer member interval among n inside
    have covered : Item.int n ∈ (LayerElem.intervals domain : LayerElem L) := by
      refine (members n).mpr ⟨peer, ?_, interval, among, inside⟩
      exact List.mem_flatMap.mpr ⟨config, configured, List.mem_append_left _ member⟩
    rw [domain_setDomain, domain_setDomain]
    simp only [List.mem_cons, List.not_mem_nil, or_false] at named
    rcases named with rfl | rfl
    · rw [if_neg (by decide), if_pos rfl]
      exact covered
    · rw [if_pos rfl]
      exact covered

theorem reduceActiveDimensions_nothing {h : CanonicalHyperCubeSet L} (nothing : h.bool = false) :
    reduceActiveDimensions dimensions h = pure h := by
  unfold reduceActiveDimensions
  rw [if_pos (by simp [nothing])]

theorem reorganizeRule_spec (same : default.all_dimensions_list = dimensions.all_dimensions_list)
    (canonical : ∀ r, Canonical default (before r).props) (visits : rule ∈ visited)
    (inv : ∀ r, Reorganized dimensions visited before r (now r)) :
    Returns (reorganizeRule dimensions now rule) fun after =>
      ∀ r, Reorganized dimensions visited before r (after r) := by
  unfold reorganizeRule
  refine returns_ite (fun unsaved => ?_) fun _ => returns_pure inv
  rw [Bool.not_eq_true'] at unsaved
  have keep : ∀ entry, Reorganized dimensions visited before rule entry →
      ∀ r, Reorganized dimensions visited before r (Function.update now rule entry r) :=
    fun entry kept => (Function.forall_update_iff _ _).mpr ⟨kept, fun r _ => inv r⟩
  rcases inv rule with ⟨props, _⟩ | ⟨_, _, saved, _⟩
  · rw [props]
    cases filled : (before rule).props.bool with
    | false =>
      rw [reduceActiveDimensions_nothing filled]
      exact returns_pure (keep _ (Or.inl ⟨rfl, filled⟩))
    | true =>
      refine returns_bind (reduceActiveDimensions_points same (canonical rule)) ?_
      intro reduced points
      exact returns_pure (keep _ (Or.inr ⟨visits, rfl, filled, points⟩))
  · rw [unsaved] at saved
    cases saved

theorem reorganizePolicies_spec {names : List κ}
    (same : default.all_dimensions_list = dimensions.all_dimensions_list)
    (canonical : ∀ r, Canonical default (before r).props)
    (visits : ∀ policy ∈ names,
      (policies policy).ingress_rules ++ (policies policy).egress_rules ⊆ visited)
    (current : state.dimensions = dimensions)
    (inv : ∀ r, Reorganized dimensions visited before r (state.rules r)) :
    Returns (names.foldlM (reorganizePropsByNewDomains policies) state) fun after =>
      after.dimensions = dimensions ∧ ∀ r, Reorganized dimensions visited before r (after.rules r) := by
  refine returns_foldlM (fun _ (after : QueryState L ι κ) => after.dimensions = dimensions ∧
    ∀ r, Reorganized dimensions visited before r (after.rules r)) ⟨current, inv⟩ ?_
  rintro done policy rest state whole ⟨rfl, kept⟩
  unfold reorganizePropsByNewDomains
  refine returns_bind (returns_foldlM (fun _ rules =>
    ∀ r, Reorganized state.dimensions visited before r (rules r)) kept ?_) ?_
  · intro _ rule _ rules split kept
    refine reorganizeRule_spec same canonical (visits policy (by simp [whole]) ?_) kept
    rw [split]
    simp
  · intro rules kept
    exact returns_pure ⟨rfl, kept⟩

theorem prepare_spec (rested : Rested default state) :
    Returns (query.prepare policies state) fun running => query.Covers running.dimensions ∧
      ∀ r, Reorganized running.dimensions (query.visited policies) state.rules r
        (running.rules r) := by
  obtain ⟨dimensions, canonical, unsaved⟩ := rested
  unfold Query.prepare
  refine returns_bind (setDomains_spec query state.dimensions) ?_
  rintro domains ⟨same, covers⟩
  refine returns_mono (returns_foldlM (fun _ (after : QueryState L ι κ) =>
    after.dimensions = domains ∧
      ∀ r, Reorganized domains (query.visited policies) state.rules r (after.rules r)) ?_ ?_) ?_
  · exact ⟨rfl, fun r => Or.inl ⟨rfl, unsaved r⟩⟩
  · rintro done config rest after whole ⟨current, kept⟩
    refine reorganizePolicies_spec (dimensions ▸ same.symm) canonical ?_ current kept
    intro policy member rule inside
    refine List.mem_flatMap.mpr ⟨config, by simp [whole], ?_⟩
    exact List.mem_flatMap.mpr ⟨policy, member, inside⟩
  · rintro running ⟨rfl, kept⟩
    exact ⟨covers, kept⟩

end Reorganize

section Restore

omit [DecidableEq ι] in
theorem bool_init (dimensions : Space L) :
    (init dimensions : CanonicalHyperCubeSet L).bool = false :=
  bool_nothing dimensions.some_dimension

/-- A rule with its saved connections, if there are any. -/
def RuleProps.restored (dimensions : Space L) (entry : RuleProps L) : RuleProps L :=
  if entry.props_copy.bool then ⟨entry.props_copy, init dimensions⟩ else entry

theorem restoreRule_eq : restoreRule dimensions now rule =
    Function.update now rule ((now rule).restored dimensions) := by
  unfold restoreRule RuleProps.restored
  split
  · rfl
  · rw [Function.update_eq_self]

omit [DecidableEq ι] in
theorem restored_twice (entry : RuleProps L) :
    (entry.restored dimensions).restored dimensions = entry.restored dimensions := by
  unfold RuleProps.restored
  split
  · rw [if_neg (by simp [bool_init])]
  · rfl

theorem foldl_restoreRule (visited : List ι) (now : ι → RuleProps L) (rule : ι) :
    visited.foldl (restoreRule dimensions) now rule =
      if rule ∈ visited then (now rule).restored dimensions else now rule := by
  induction visited generalizing now with
  | nil => rw [if_neg List.not_mem_nil, List.foldl_nil]
  | cons r rest ih =>
    rw [List.foldl_cons, ih, restoreRule_eq]
    by_cases first : rule = r
    · subst first
      rw [Function.update_self, restored_twice, ite_self, if_pos List.mem_cons_self]
    · rw [Function.update_of_ne first]
      simp [first]

theorem foldl_restoreProps (names : List κ) (state : QueryState L ι κ) :
    (names.foldl (restoreProps policies) state).dimensions = state.dimensions ∧
      (names.foldl (restoreProps policies) state).rules =
        (names.flatMap fun policy =>
          (policies policy).ingress_rules ++ (policies policy).egress_rules).foldl
            (restoreRule state.dimensions) state.rules := by
  induction names generalizing state with
  | nil => exact ⟨rfl, rfl⟩
  | cons policy rest ih =>
    obtain ⟨dimensions, rules⟩ := ih (restoreProps policies state policy)
    rw [List.foldl_cons, List.flatMap_cons, List.foldl_append]
    exact ⟨dimensions, rules⟩

theorem finish_eq (query : Query L ι κ A) (state : QueryState L ι κ) :
    (query.finish policies default state).dimensions = default ∧
      (query.finish policies default state).rules =
        (query.visited policies).foldl (restoreRule default) state.rules := by
  have walk : ∀ (configs : List (QueriedConfig κ)) (state : QueryState L ι κ),
      (configs.foldl (fun state config => config.policies.foldl (restoreProps policies) state)
        state).dimensions = state.dimensions ∧
      (configs.foldl (fun state config => config.policies.foldl (restoreProps policies) state)
        state).rules = (configs.flatMap fun config => config.policies.flatMap fun policy =>
          (policies policy).ingress_rules ++ (policies policy).egress_rules).foldl
            (restoreRule state.dimensions) state.rules := by
    intro configs
    induction configs with
    | nil => exact fun _ => ⟨rfl, rfl⟩
    | cons config rest ih =>
      intro state
      obtain ⟨dimensions, rules⟩ := foldl_restoreProps config.policies state
      obtain ⟨dimensions', rules'⟩ := ih (config.policies.foldl (restoreProps policies) state)
      rw [List.foldl_cons, List.flatMap_cons, List.foldl_append, dimensions', rules', dimensions,
        rules]
      exact ⟨rfl, rfl⟩
  exact walk query.configs { state with dimensions := default }

theorem restored {running : QueryState L ι κ}
    (kept : ∀ r, Reorganized dimensions (query.visited policies) before r (running.rules r))
    (rule : ι) :
    ((query.finish policies default running).rules rule).props = (before rule).props ∧
      ((query.finish policies default running).rules rule).props_copy.bool = false := by
  rw [(finish_eq query running).2, foldl_restoreRule]
  unfold RuleProps.restored
  rcases kept rule with ⟨props, unsaved⟩ | ⟨visits, copy, saved, _⟩
  · have none : ¬ (running.rules rule).props_copy.bool = true := by simp [unsaved]
    rw [if_neg none, ite_self]
    exact ⟨props, unsaved⟩
  · rw [if_pos visits, if_pos saved]
    exact ⟨copy, bool_init default⟩

end Restore

/-- A query leaves the connections of all rules as they were. -/
theorem run_spec {result : QueryResult A} {after : QueryState L ι κ} (rested : Rested default state)
    (ran : query.run policies default state = .ok (result, after)) :
    Rested default after ∧ ∀ rule, (after.rules rule).props = (state.rules rule).props := by
  unfold Query.run at ran
  split at ran
  · obtain ⟨_, rfl⟩ := Prod.mk.inj (Except.ok.inj ran)
    exact ⟨rested, fun _ => rfl⟩
  · split at ran
    · obtain ⟨_, rfl⟩ := Prod.mk.inj (Except.ok.inj ran)
      exact ⟨rested, fun _ => rfl⟩
    · have prepares : Returns (query.prepare policies state) _ := prepare_spec rested
      obtain ⟨running, prepared, _, kept⟩ := prepares
      rw [prepared, ok_bind] at ran
      cases executed : query.execute running with
      | error e =>
        rw [executed] at ran
        cases ran
      | ok answer =>
        rw [executed, ok_bind] at ran
        obtain ⟨_, rfl⟩ := Prod.mk.inj (Except.ok.inj ran)
        have back : ∀ rule, (((query.finish policies default
            { running with props_in_sync := answer.2 }).rules rule).props = _ ∧ _) := restored kept
        refine ⟨⟨(finish_eq query _).1, fun rule => ?_, fun rule => (back rule).2⟩,
          fun rule => (back rule).1⟩
        rw [(back rule).1]
        exact rested.canonical rule

theorem runQueries_spec {queries : List (Query L ι κ A)} {after : QueryState L ι κ}
    (rested : Rested default state) (ran : runQueries policies default queries state = .ok after) :
    Rested default after ∧ ∀ rule, (after.rules rule).props = (state.rules rule).props := by
  induction queries generalizing state with
  | nil =>
    obtain rfl := Except.ok.inj ran
    exact ⟨rested, fun _ => rfl⟩
  | cons query rest ih =>
    unfold runQueries at ran ih
    rw [List.foldlM_cons] at ran
    cases first : query.run policies default state with
    | error e =>
      rw [first] at ran
      cases ran
    | ok next =>
      rw [first] at ran
      obtain ⟨restedNext, same⟩ := run_spec rested first
      obtain ⟨restedAfter, same'⟩ := ih restedNext ran
      exact ⟨restedAfter, fun rule => (same' rule).trans (same rule)⟩

/-- After any queries, the next one sets domains that cover its peers; while it runs, each rule has
the same points within these domains, and after it the connections of each rule are equal to what
they were. -/
theorem queries_keep_props {queries : List (Query L ι κ A)} {start : QueryState L ι κ}
    (rested : Rested default start) (ran : runQueries policies default queries start = .ok state)
    (query : Query L ι κ A) :
    Returns (query.prepare policies state) (fun running => query.Covers running.dimensions ∧
      ∀ rule p, Point running.dimensions p →
        (Has (running.rules rule).props p ↔ Has (state.rules rule).props p)) ∧
    ∀ result after, query.run policies default state = .ok (result, after) →
      ∀ rule, eq (after.rules rule).props (state.rules rule).props = true := by
  obtain ⟨restedState, _⟩ := runQueries_spec rested ran
  constructor
  · refine returns_mono (prepare_spec restedState) ?_
    rintro running ⟨covers, kept⟩
    refine ⟨covers, fun rule p point => ?_⟩
    rcases kept rule with ⟨props, _⟩ | ⟨_, _, _, points⟩
    · rw [props]
    · exact points p point
  · intro result after executed rule
    rw [(run_spec restedState executed).2 rule]
    have canonical := restedState.canonical rule
    exact (canonical_eq canonical canonical).mpr fun _ _ => Iff.rfl

section Peers

def allPeers : CanonicalIntervalSet := ⟨[⟨BasePeerSet.min_ipv4_index, BasePeerSet.max_pod_index⟩]⟩

theorem allPeers_valid : allPeers.Canonical ∧ ∃ n, n ∈ allPeers :=
  ⟨CanonicalIntervalSet.canonical_singleton (by unfold Interval.Proper; decide),
    0, _, List.mem_cons_self, by decide, by decide⟩

/-- The dimensions of peers, with all indices of peers as their domains. -/
def peerDimensions : Space (Finset String) where
  manager := ⟨[("src_peers", .IntervalSet, .intervals allPeers),
    ("dst_peers", .IntervalSet, .intervals allPeers)]⟩
  all_dimensions_list := ["src_peers", "dst_peers"]
  nodup := by decide
  some_dimension := by decide
  domains := by
    obtain ⟨canonical, n, inside⟩ := allPeers_valid
    intro d member
    simp only [List.mem_cons, List.not_mem_nil, or_false] at member
    rcases member with rfl | rfl
    · exact ⟨(.IntervalSet, .intervals allPeers), by decide, rfl, canonical, .int n, inside⟩
    · exact ⟨(.IntervalSet, .intervals allPeers), by decide, rfl, canonical, .int n, inside⟩

/-- Connections from the first pod. -/
def fromFirstPod : CanonicalHyperCubeSet (Finset String) :=
  mk ["src_peers"]
    [(.intervals ⟨[⟨BasePeerSet.min_pod_index, BasePeerSet.min_pod_index⟩]⟩, emptyInterval)]

theorem fromFirstPod_canonical : Canonical peerDimensions fromFirstPod := by
  have fits : CubeFits peerDimensions
      [.intervals ⟨[⟨BasePeerSet.min_pod_index, BasePeerSet.min_pod_index⟩]⟩] ["src_peers"] := by
    refine ⟨by decide, .cons ⟨⟨rfl, CanonicalIntervalSet.canonical_singleton (Int.le_refl _)⟩, ?_⟩ .nil⟩
    rintro (n | w) inside
    · obtain ⟨a, member, lower, upper⟩ := inside
      obtain rfl := List.mem_singleton.mp member
      refine ⟨_, List.mem_cons_self, Int.le_trans (by decide) lower, Int.le_trans upper (by decide)⟩
    · exact inside.elim
  obtain ⟨r, run, canonical, _⟩ := createFromCube_spec (List.cons_ne_nil _ _) fits
  obtain rfl := Except.ok.inj run
  exact canonical

/-- A query on one configuration, whose only policy has one rule. -/
def podsQuery : Query (Finset String) Unit Unit Unit where
  configs := [⟨"pods", [.other 0, .other 1], [()]⟩]
  some_config := List.cons_ne_nil _ _
  outputFormat := "txt"
  supported_output_formats := ["txt"]
  execute state := pure ((), state.props_in_sync)

def podsState : QueryState (Finset String) Unit Unit :=
  ⟨peerDimensions, fun _ => ⟨fromFirstPod, init peerDimensions⟩, fun _ => false⟩

def podsPolicies : Unit → PolicyRules Unit := fun _ => ⟨[()], []⟩

theorem queries_keep_props_pods : ∃ state,
    runQueries podsPolicies peerDimensions [podsQuery] podsState = .ok state ∧
    Returns (podsQuery.prepare podsPolicies state) (fun running =>
      podsQuery.Covers running.dimensions ∧ ∀ rule p, Point running.dimensions p →
        (Has (running.rules rule).props p ↔ Has (state.rules rule).props p)) ∧
    ∀ result after, podsQuery.run podsPolicies peerDimensions state = .ok (result, after) →
      ∀ rule, eq (after.rules rule).props (state.rules rule).props = true := by
  obtain ⟨state, ran⟩ : ∃ state,
      runQueries podsPolicies peerDimensions [podsQuery] podsState = .ok state := ⟨_, rfl⟩
  have rested : Rested peerDimensions podsState :=
    ⟨rfl, fun _ => fromFirstPod_canonical, fun _ => bool_init peerDimensions⟩
  exact ⟨state, ran, queries_keep_props rested ran podsQuery⟩

end Peers

end Nca.NetworkConfig
