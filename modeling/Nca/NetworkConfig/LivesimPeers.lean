import Nca.NetworkConfig.QueryAgreement
import Nca.NetworkConfig.RedundancyFindings

/-!
Permits and forbids queries. They compare what a specification allows with what a configuration
allows, and list the connections that offend. Connections of livesim peers, which are added where
resources are missing, are left out of the list, but not of the verdict.
-/

namespace Nca.NetworkConfig
open CoreDS Lib Resources

/-- One cube of connectivity properties, with its sets of peers apart from the other dimensions. -/
structure PeersCube (P E : Type) where
  src_peers : Option (PeerSet E)
  dst_peers : Option (PeerSet E)
  rest : P

/-- The connection lies in the cube. -/
def PeersCube.Admits {P E κ : Type} [ConnectivityProperties P E κ] (cube : PeersCube P E)
    (x : Flow E κ) : Prop :=
  (∀ peers, cube.src_peers = some peers → x.src ∈ peers) ∧
  (∀ peers, cube.dst_peers = some peers → x.dst ∈ peers) ∧ x ∈ cube.rest

/-- Properties can be gone over cube by cube, and no cube is empty. -/
class PropsCubes (P : Type) (E κ : outParam Type) extends ContainedIn P E κ where
  cubes : P → List (PeersCube P E)
  mem_cubes : ∀ (props : P) (x : Flow E κ), x ∈ props ↔ ∃ cube ∈ cubes props, cube.Admits x
  inhabited : ∀ (props : P), ∀ cube ∈ cubes props, ∃ x : Flow E κ, cube.Admits x

/-- How peers are written, and which peer of a set represents it. -/
class PeerNames (E : Type) where
  str : E → String
  rep : PeerSet E → String

structure PeersAndConnectivityProperties (P : Type) where
  src_peer : List String
  dst_peer : List String
  conns1 : P
  conns2 : P

def PeersAndConnectivityProperties.lt {P : Type} (self other : PeersAndConnectivityProperties P) :
    Bool :=
  if self.src_peer = other.src_peer then decide (self.dst_peer < other.dst_peer)
  else decide (self.src_peer < other.src_peer)

inductive OutputExplanation (P : Type) where
  | podsLists (explanation_description : String) (pods_list : List String)
  | connectionsDiff (explanation_description : String)
      (peers_diff_connections_list : List (PeersAndConnectivityProperties P))

/-- An answer about two configurations, with its texts and explanations. -/
structure ComparisonAnswer (P : Type) extends QueryAnswer where
  output_result : String := ""
  output_explanation : List (OutputExplanation P) := []
  query_not_executed : Bool := false

/-- A query about two configurations with the names of these and the livesim peers of the first. -/
structure NamedConfigsQuery (P : Type) {E κ : Type} [Peers E] [ConnectivityProperties P E κ] extends
    TwoNetworkConfigsQuery P where
  name1 : String
  name2 : String
  livesim_peers : PeerSet E
  fullExplanation : Bool := false

variable {P E κ : Type} [Fintype E] [DecidableEq E] [Peers E] [PeerNames E] [PropsCubes P E κ]

namespace NamedConfigsQuery
variable (self : NamedConfigsQuery P)

/-- `extract_src_dst_peers_from_cube` and the item of the list for the cube. -/
def explainCube (props_based_on_config1 : Bool) (cube : PeersCube P E) :
    PeersAndConnectivityProperties P :=
  let all_peers := self.config1.peer_container.getAllPeersGroup true
  let peersOr := fun peers : Option (PeerSet E) =>
    match peers with
    | some peers => if peers = ∅ then all_peers else peers
    | none => all_peers
  let names := fun peers : PeerSet E =>
    if self.fullExplanation then (peers.val.map PeerNames.str).sort else [PeerNames.rep peers]
  { src_peer := names (peersOr cube.src_peers)
    dst_peer := names (peersOr cube.dst_peers)
    conns1 := if props_based_on_config1 then cube.rest else ∅
    conns2 := if props_based_on_config1 then ∅ else cube.rest }

/-- The difference without the connections of livesim peers. -/
def removeLivesim (conn_diff_props : P) : P :=
  if self.livesim_peers ≠ ∅ then
    let peers_no_livesim :=
      self.config1.peer_container.getAllPeersGroup true true \ self.livesim_peers
    conn_diff_props ∩ makeConnProps
      { src_peers := some peers_no_livesim, dst_peers := some peers_no_livesim }
  else conn_diff_props

/-- Without a full explanation only the first cube is taken. -/
def appendDifferentConnsToList (conn_diff_props : P)
    (different_conns_list : List (PeersAndConnectivityProperties P))
    (props_based_on_config1 : Bool := true) (remove_livesim_diff : Bool := false) :
    List (PeersAndConnectivityProperties P) :=
  let conn_diff_props :=
    if remove_livesim_diff then self.removeLivesim conn_diff_props else conn_diff_props
  let items := (PropsCubes.cubes conn_diff_props).map (self.explainCube props_based_on_config1)
  different_conns_list ++ if self.fullExplanation then items else items.take 1

/-- `is_identical_topologies` without a check of the policies; only a difference has a text. -/
def isIdenticalTopologies : ComparisonAnswer P :=
  if self.identicalTopologies then { bool_result := true }
  else { output_result := "The two configurations have different network topologies and thus are not comparable."
         query_not_executed := true }

end NamedConfigsQuery

/-- A clone without gateway policies, if there are any. -/
def cloneWithoutGatewayLayers (config : NetworkConfig P) : NetworkConfig P :=
  let nonempty := fun layer_name =>
    ((Dict.get config.policies_container.layers layer_name).getD []).isEmpty = false
  if nonempty .K8sGateway ∨ nonempty .IstioGateway then
    config.policies_container.policies.foldl (fun config_without_gateway entry =>
      match entry.2 with
      | .gateway _ => config_without_gateway
      | policy => config_without_gateway.appendPolicyToConfig policy) config.cloneWithoutPolicies
  else config

def doesContainOnlyGatewayLayers (layers : NetworkLayersContainer P) : Bool :=
  !layers.isEmpty && layers.all fun layer => decide (layer.1 ∈ [.K8sGateway, .IstioGateway])

namespace ContainmentQuery
variable (self : NamedConfigsQuery P)

/-- `_query_answer_with_relevant_explanation`. -/
def notContained (explanation_list : List (PeersAndConnectivityProperties P)) (cmd_line_flag : Bool) :
    ComparisonAnswer P where
  output_result := self.name1 ++ " is not contained in " ++ self.name2
  output_explanation := [.connectionsDiff
    ("Connections allowed in " ++ self.name1 ++ " which are not a subset of those in " ++ self.name2)
    explanation_list]
  numerical_result := if cmd_line_flag then 1 else 0

/-- `check_containment` with the texts and explanations of its answer. -/
def explainContainment (cmd_line_flag only_captured remove_livesim_diff : Bool) :
    ComparisonAnswer P :=
  let res_conns_filter1 :=
    if only_captured then PolicyConnectionsFilter.onlyAllowedConnections
    else .onlyAllAllowedConnections
  let conn_props1 := self.config1.allowedConnections none res_conns_filter1
  let conn_props2 := self.config2.allowedConnections none .onlyAllAllowedConnections
  let conns := self.filterConnsByInputOrInternalConstraints
    (if only_captured then conn_props1.allowed_conns else conn_props1.all_allowed_conns)
    conn_props2.all_allowed_conns
  if containedIn conns.1 conns.2 then
    { bool_result := true, output_result := self.name1 ++ " is contained in " ++ self.name2
      numerical_result := if cmd_line_flag then 0 else 1 }
  else
    notContained self (sorted PeersAndConnectivityProperties.lt
      (self.appendDifferentConnsToList (conns.1 \ conns.2) [] true remove_livesim_diff)) cmd_line_flag

/-- `exec` with the texts and explanations of its answer. -/
def explain (cmd_line_flag only_captured remove_livesim_diff : Bool) : ComparisonAnswer P :=
  let config1_peers := self.config1.peer_container.getAllPeersGroup false true
  let peers_in_config1_not_in_config2 :=
    config1_peers \ self.config2.peer_container.getAllPeersGroup false true
  if peers_in_config1_not_in_config2 ≠ ∅ then
    { output_result := self.name1 ++ " is not contained in " ++ self.name2 ++ " "
      output_explanation := [.podsLists
        ("Peers in " ++ self.name1 ++ " which are not in " ++ self.name2)
        (peers_in_config1_not_in_config2.val.map PeerNames.str).sort]
      numerical_result := if cmd_line_flag then 1 else 0 }
  else explainContainment self cmd_line_flag only_captured remove_livesim_diff

/-- What is decided is what is decided without explanations. -/
theorem explain_answer (cmd_line_flag only_captured remove_livesim_diff : Bool) :
    (explain self cmd_line_flag only_captured remove_livesim_diff).toQueryAnswer =
      exec self.toTwoNetworkConfigsQuery cmd_line_flag only_captured := by
  unfold explain exec
  simp only [apply_ite ComparisonAnswer.toQueryAnswer, explainContainment, checkContainment, notContained]

end ContainmentQuery

namespace PermitsQuery
variable (self : NamedConfigsQuery P) (cmd_line_flag : Bool)

/-- The containment query that is asked, without the gateway layers of the specification. -/
def asked : ComparisonAnswer P :=
  ContainmentQuery.explain { self with config1 := cloneWithoutGatewayLayers self.config1 }
    cmd_line_flag true true

def exec : ComparisonAnswer P :=
  let output_result_on_permit := self.name2 ++ " permits all connections specified in " ++ self.name1
  if self.config1.policies_container.policies.isEmpty then
    { output_result := "There are no NetworkPolicies in the given permits config. No traffic is specified as permitted."
      query_not_executed := true }
  else if self.identicalTopologies = false then
    { self.isIdenticalTopologies with numerical_result := if cmd_line_flag then 1 else 0 }
  else if doesContainOnlyGatewayLayers self.config1.policies_container.layers then
    { output_result := "Permitted traffic cannot be specified using Ingress/Gateway resources only"
      query_not_executed := true }
  else
    let query_answer := asked self cmd_line_flag
    let query_answer :=
      if cmd_line_flag then query_answer
      else { query_answer with
        numerical_result := if query_answer.output_explanation.isEmpty then 0 else 1 }
    let query_answer :=
      if query_answer.bool_result then { query_answer with output_result := output_result_on_permit }
      else query_answer
    if query_answer.output_explanation.isEmpty then query_answer
    else { query_answer with
      output_result := self.name2 ++ " does not permit connections specified in " ++ self.name1 }

end PermitsQuery

namespace IntersectsQuery
variable (self : NamedConfigsQuery P)

def checkIntersects (only_captured : Bool := true) : ComparisonAnswer P :=
  let res_conns_filter1 :=
    if only_captured then PolicyConnectionsFilter.onlyAllowedConnections
    else .onlyAllAllowedConnections
  let conn_props1 := self.config1.allowedConnections none res_conns_filter1
  let conn_props2 := self.config2.allowedConnections none .onlyAllAllowedConnections
  let conns := self.filterConnsByInputOrInternalConstraints
    (if only_captured then conn_props1.allowed_conns else conn_props1.all_allowed_conns)
    conn_props2.all_allowed_conns
  let conns_in_both := conns.1 ∩ conns.2
  if ExactSet.bool conns_in_both then
    { bool_result := true, output_result := self.name2 ++ " intersects with " ++ self.name1
      output_explanation := [.connectionsDiff "" (sorted PeersAndConnectivityProperties.lt
        (self.appendDifferentConnsToList conns_in_both [] true true))] }
  else
    { output_result := "The connections allowed by " ++ self.name1 ++
        " do not intersect the connections allowed by " ++ self.name2
      numerical_result := 1 }

/-- `exec`; it does not pass on what it is asked about captured connections. -/
def exec : ComparisonAnswer P :=
  if self.identicalTopologies then checkIntersects self else self.isIdenticalTopologies

end IntersectsQuery

namespace ForbidsQuery
variable (self : NamedConfigsQuery P)

/-- The intersection query that is asked, without the gateway layers of the specification. -/
def asked : ComparisonAnswer P :=
  IntersectsQuery.exec { self with config1 := cloneWithoutGatewayLayers self.config1 }

def exec : ComparisonAnswer P :=
  if self.config1.policies_container.policies.isEmpty then
    { output_result := "There are no NetworkPolicies in the given forbids config. No traffic is specified as forbidden."
      query_not_executed := true }
  else if doesContainOnlyGatewayLayers self.config1.policies_container.layers then
    { output_result := "Forbidden traffic cannot be specified using Ingress/Gateway resources only"
      query_not_executed := true }
  else
    let query_answer := asked self
    let query_answer :=
      if query_answer.numerical_result = 1 then { query_answer with
        output_result := query_answer.output_result ++ "\n" ++ self.name2 ++
          " forbids connections specified in " ++ self.name1 }
      else query_answer
    let query_answer :=
      match query_answer.output_explanation with
      | .connectionsDiff _ connections :: _ => { query_answer with
          output_result := self.name2 ++ " does not forbid connections specified in " ++ self.name1
          output_explanation := [.connectionsDiff ("Both " ++ self.name1 ++ " and " ++ self.name2 ++
            " allow the following connection(s)") connections] }
      | _ => query_answer
    { query_answer with numerical_result := if query_answer.bool_result then 1 else 0 }

end ForbidsQuery

section Statement

/-- The connections that an explanation lists. -/
def OutputExplanation.connections : OutputExplanation P → List (PeersAndConnectivityProperties P)
  | .podsLists _ _ => []
  | .connectionsDiff _ peers_diff_connections_list => peers_diff_connections_list

def ComparisonAnswer.connections (answer : ComparisonAnswer P) :
    List (PeersAndConnectivityProperties P) :=
  answer.output_explanation.flatMap OutputExplanation.connections

variable (self : NamedConfigsQuery P) (livesim : PeerSet E) (x : Flow E κ)

/-- Without gateway layers the first configuration allows the connection to peers that its policies
capture, and it is not of a kind that is left out. -/
def Specified : Prop :=
  let config1 := cloneWithoutGatewayLayers self.config1
  (x ∈ (config1.allowedConnections none .onlyAllowedConnections).allowed_conns ∧
    ¬ NeverAllowed config1 x) ∧
  (TwoNetworkConfigsQuery.excludeIpv6 ⟨config1, self.config2, self.excludeIPv6Range⟩ = true →
    ¬ IsIpv6 x.src ∧ ¬ IsIpv6 x.dst)

/-- The second configuration allows the connection, and it is not of a kind that is left out. -/
def AllowedBySecond : Prop :=
  let config1 := cloneWithoutGatewayLayers self.config1
  (x ∈ (self.config2.allowedConnections none .onlyAllAllowedConnections).all_allowed_conns ∧
    ¬ NeverAllowed self.config2 x) ∧
  (TwoNetworkConfigsQuery.excludeIpv6 ⟨config1, self.config2, self.excludeIPv6Range⟩ = true →
    ¬ IsIpv6 x.src ∧ ¬ IsIpv6 x.dst)

/-- Neither end of the connection is a livesim peer. -/
def WithoutLivesim : Prop := x.src ∉ livesim ∧ x.dst ∉ livesim

/-- The offending verdict is given exactly if there is an offending connection without livesim peers;
it comes with connections, and the other verdict comes without. -/
def Evidenced (offending : Bool) (offends : Flow E κ → Prop) (answer : ComparisonAnswer P) : Prop :=
  (answer.bool_result = offending ↔ ∃ x, offends x ∧ WithoutLivesim livesim x) ∧
  (answer.bool_result = offending → answer.connections ≠ []) ∧
  (answer.bool_result ≠ offending → answer.connections = [])

/-- The offending connections are not all connections of livesim peers. -/
def NotOnlyLivesim (offends : Flow E κ → Prop) : Prop :=
  (∃ x, offends x) → ∃ x, offends x ∧ WithoutLivesim livesim x

end Statement

section Lists

variable {self : NamedConfigsQuery P} {conn_diff_props : P} {x : Flow E κ}

omit [Fintype E] [DecidableEq E] [Peers E] [PeerNames E] in
theorem cubes_eq_nil : PropsCubes.cubes conn_diff_props = [] ↔ ∀ x, x ∉ conn_diff_props := by
  constructor
  · intro none x inside
    obtain ⟨cube, member, _⟩ := (PropsCubes.mem_cubes conn_diff_props x).mp inside
    rw [none] at member
    cases member
  · intro none
    apply List.eq_nil_iff_forall_not_mem.mpr
    intro cube member
    obtain ⟨x, admits⟩ := PropsCubes.inhabited conn_diff_props cube member
    exact none x ((PropsCubes.mem_cubes conn_diff_props x).mpr ⟨cube, member, admits⟩)

omit [PeerNames E] in
theorem mem_removeLivesim
    (src : x.src ∈ self.config1.peer_container.getAllPeersGroup true true)
    (dst : x.dst ∈ self.config1.peer_container.getAllPeersGroup true true) :
    x ∈ self.removeLivesim conn_diff_props ↔
      x ∈ conn_diff_props ∧ WithoutLivesim self.livesim_peers x := by
  unfold NamedConfigsQuery.removeLivesim WithoutLivesim
  by_cases some : self.livesim_peers ≠ ∅
  · rw [if_pos some, ExactSet.mem_inter, mem_makeConnProps]
    simp [ConnectivityCube.Admits, src, dst]
  · rw [if_neg some]
    rw [ne_eq, not_not] at some
    simp [some]

/-- The list has connections if and only if there are some without livesim peers. -/
theorem appendDifferent_eq_nil (self : NamedConfigsQuery P) (conn_diff_props : P) (ends : ∀ x ∈ conn_diff_props,
      x.src ∈ self.config1.peer_container.getAllPeersGroup true true ∧
      x.dst ∈ self.config1.peer_container.getAllPeersGroup true true) :
    sorted PeersAndConnectivityProperties.lt
        (self.appendDifferentConnsToList conn_diff_props [] true true) = [] ↔
      ¬ ∃ x ∈ conn_diff_props, WithoutLivesim self.livesim_peers x := by
  have none : self.appendDifferentConnsToList conn_diff_props [] true true = [] ↔
      PropsCubes.cubes (self.removeLivesim conn_diff_props) = [] := by
    unfold NamedConfigsQuery.appendDifferentConnsToList
    cases self.fullExplanation <;> simp
  have kept : sorted PeersAndConnectivityProperties.lt
      (self.appendDifferentConnsToList conn_diff_props [] true true) = [] ↔
        self.appendDifferentConnsToList conn_diff_props [] true true = [] := by
    rw [← List.length_eq_zero_iff, sorted_perm.length_eq, List.length_eq_zero_iff]
  rw [kept, none, cubes_eq_nil, not_exists]
  apply forall_congr'
  intro x
  apply not_congr
  constructor
  · intro member
    have inside : x ∈ conn_diff_props := by
      unfold NamedConfigsQuery.removeLivesim at member
      split at member
      · exact (ExactSet.mem_inter.mp member).1
      · exact member
    exact (mem_removeLivesim (ends x inside).1 (ends x inside).2).mp member
  · intro ⟨inside, without⟩
    exact (mem_removeLivesim (ends x inside).1 (ends x inside).2).mpr ⟨inside, without⟩

omit [Fintype E] [DecidableEq E] [PeerNames E] in
theorem cloneWithoutGatewayLayers_peers (config : NetworkConfig P) :
    (cloneWithoutGatewayLayers config).peer_container = config.peer_container := by
  unfold cloneWithoutGatewayLayers
  dsimp only
  split
  · have run : ∀ (entries : List ((String × PolicyType) × Policy P)) (start : NetworkConfig P),
        (entries.foldl (fun config_without_gateway entry => match entry.2 with
          | .gateway _ => config_without_gateway
          | policy => config_without_gateway.appendPolicyToConfig policy) start).peer_container =
            start.peer_container := by
      intro entries
      induction entries with
      | nil => exact fun _ => rfl
      | cons entry rest ih =>
        intro start
        rw [List.foldl_cons, ih]
        split <;> rfl
    exact run _ _
  · rfl

omit [PeerNames E] in
/-- What the policies allow is between peers of the configuration and IP addresses. -/
theorem allowedConns_ends {config : NetworkConfig P}
    (allowed : x ∈ (config.allowedConnections none .onlyAllowedConnections).allowed_conns) :
    x.src ∈ config.peer_container.getAllPeersGroup true true ∧
      x.dst ∈ config.peer_container.getAllPeersGroup true true := by
  apply allowed_ends
  have all : x ∈ (config.allowedConnections none .onlyAllowedConnections).all_allowed_conns := by
    unfold NetworkConfig.allowedConnections at allowed ⊢
    exact (ExactSet.mem_inter.mp allowed).2
  exact ((mem_all_allowed rfl).mp all).1

end Lists

section Verdicts

variable {self : NamedConfigsQuery P} {livesim : PeerSet E} {offends : Flow E κ → Prop}
  {answer : ComparisonAnswer P} {offending : Bool}

omit [Fintype E] [DecidableEq E] [PeerNames E] in
/-- A verdict that is given for any offending connection, and evidence without livesim peers. -/
theorem evidenced_iff (some : self.livesim_peers ⊆ livesim)
    (verdict : answer.bool_result = offending ↔ ∃ x, offends x)
    (listed : answer.bool_result = offending →
      (answer.connections = [] ↔ ¬ ∃ x, offends x ∧ WithoutLivesim self.livesim_peers x))
    (clean : answer.bool_result ≠ offending → answer.connections = []) :
    Evidenced livesim offending offends answer ↔ NotOnlyLivesim livesim offends := by
  constructor
  · intro ⟨exact_, _⟩ any
    exact exact_.mp (verdict.mpr any)
  · intro other
    have without : answer.bool_result = offending → ∃ x, offends x ∧ WithoutLivesim livesim x :=
      fun given => other (verdict.mp given)
    refine ⟨⟨without, fun ⟨x, offends, _⟩ => verdict.mpr ⟨x, offends⟩⟩, ?_, clean⟩
    intro given none
    obtain ⟨x, offends, src, dst⟩ := without given
    exact (listed given).mp none ⟨x, offends, fun inside => src (some inside), fun inside => dst (some inside)⟩

/-- The query about the specification without its gateway layers. -/
def withoutGateway (self : NamedConfigsQuery P) : NamedConfigsQuery P :=
  { self with config1 := cloneWithoutGatewayLayers self.config1 }

omit [Fintype E] [DecidableEq E] [PeerNames E] in
@[simp] theorem withoutGateway_livesim : (withoutGateway self).livesim_peers = self.livesim_peers := rfl

omit [Fintype E] [PeerNames E] in
theorem withoutGateway_same (same : self.identicalTopologies = true) :
    (withoutGateway self).identicalTopologies = true := by
  unfold TwoNetworkConfigsQuery.identicalTopologies withoutGateway at *
  rwa [cloneWithoutGatewayLayers_peers]

variable {x : Flow E κ}

/-- The two sets of connections that both queries compare. -/
def comparedConns (self : NamedConfigsQuery P) : P × P :=
  (withoutGateway self).filterConnsByInputOrInternalConstraints
    ((withoutGateway self).config1.allowedConnections none .onlyAllowedConnections).allowed_conns
    (self.config2.allowedConnections none .onlyAllAllowedConnections).all_allowed_conns

omit [PeerNames E] in
theorem mem_compared (self : NamedConfigsQuery P) (x : Flow E κ) :
    (x ∈ (comparedConns self).1 ↔ Specified self x) ∧
      (x ∈ (comparedConns self).2 ↔ AllowedBySecond self x) := mem_filtered

omit [PeerNames E] in
theorem specified_ends (specified : Specified self x) :
    x.src ∈ (withoutGateway self).config1.peer_container.getAllPeersGroup true true ∧
      x.dst ∈ (withoutGateway self).config1.peer_container.getAllPeersGroup true true :=
  allowedConns_ends specified.1.1

theorem asked_containment (same : self.identicalTopologies = true) (cmd_line_flag : Bool) :
    PermitsQuery.asked self cmd_line_flag =
      ContainmentQuery.explainContainment (withoutGateway self) cmd_line_flag true true := by
  have peers := of_decide_eq_true (withoutGateway_same same)
  unfold PermitsQuery.asked ContainmentQuery.explain
  apply if_neg
  rw [not_not]
  show (withoutGateway self).config1.peer_container.getAllPeersGroup false true \
    (withoutGateway self).config2.peer_container.getAllPeersGroup false true = ∅
  simp [PeerContainer.getAllPeersGroup, peers]

theorem asked_intersects (same : self.identicalTopologies = true) :
    ForbidsQuery.asked self = IntersectsQuery.checkIntersects (withoutGateway self) :=
  if_pos (withoutGateway_same same)

theorem permits_evidenced (some : self.livesim_peers ⊆ livesim) (cmd_line_flag : Bool) :
    Evidenced livesim false (fun x => Specified self x ∧ ¬ AllowedBySecond self x)
        (ContainmentQuery.explainContainment (withoutGateway self) cmd_line_flag true true) ↔
      NotOnlyLivesim livesim fun x : Flow E κ => Specified self x ∧ ¬ AllowedBySecond self x := by
  have compared := mem_compared self
  show Evidenced livesim false _ (if containedIn (comparedConns self).1 (comparedConns self).2 = true then _
    else ContainmentQuery.notContained (withoutGateway self) (sorted PeersAndConnectivityProperties.lt
      ((withoutGateway self).appendDifferentConnsToList
        ((comparedConns self).1 \ (comparedConns self).2) [] true true)) cmd_line_flag) ↔ _
  generalize comparedConns self = conns at compared ⊢
  have offends : ∀ x : Flow E κ, x ∈ conns.1 \ conns.2 ↔ Specified self x ∧ ¬ AllowedBySecond self x := by
    intro x
    rw [ExactSet.mem_sdiff, (compared x).1, (compared x).2]
  have contained : containedIn conns.1 conns.2 = true ↔
      ¬ ∃ x : Flow E κ, Specified self x ∧ ¬ AllowedBySecond self x := by
    rw [ContainedIn.containedIn_iff]
    simp only [← offends, ExactSet.mem_sdiff, not_exists, not_and, not_not]
    rfl
  apply evidenced_iff some
  · split
    · rename_i inside
      exact iff_of_false (by simp) (contained.mp inside)
    · rename_i outside
      exact iff_of_true rfl (not_not.mp (mt contained.mpr outside))
  · split
    · exact fun given => absurd given (by simp)
    · intro _
      have listed := appendDifferent_eq_nil (withoutGateway self) (conns.1 \ conns.2)
        fun x inside => specified_ends ((offends x).mp inside).1
      simp only [offends] at listed
      simpa [ComparisonAnswer.connections, ContainmentQuery.notContained, OutputExplanation.connections] using listed
  · split
    · exact fun _ => rfl
    · exact fun clean => absurd rfl clean

theorem forbids_evidenced (some : self.livesim_peers ⊆ livesim) :
    Evidenced livesim true (fun x => Specified self x ∧ AllowedBySecond self x)
        (IntersectsQuery.checkIntersects (withoutGateway self)) ↔
      NotOnlyLivesim livesim fun x : Flow E κ => Specified self x ∧ AllowedBySecond self x := by
  have compared := mem_compared self
  show Evidenced livesim true _ (if ExactSet.bool ((comparedConns self).1 ∩ (comparedConns self).2) = true
    then ComparisonAnswer.mk _ _ [.connectionsDiff "" (sorted PeersAndConnectivityProperties.lt
      ((withoutGateway self).appendDifferentConnsToList
        ((comparedConns self).1 ∩ (comparedConns self).2) [] true true))] _ else _) ↔ _
  generalize comparedConns self = conns at compared ⊢
  have offends : ∀ x : Flow E κ, x ∈ conns.1 ∩ conns.2 ↔ Specified self x ∧ AllowedBySecond self x := by
    intro x
    rw [ExactSet.mem_inter, (compared x).1, (compared x).2]
  have both : ExactSet.bool (conns.1 ∩ conns.2) = true ↔
      ∃ x : Flow E κ, Specified self x ∧ AllowedBySecond self x := by
    rw [ExactSet.bool_iff]
    exact exists_congr offends
  apply evidenced_iff some
  · split
    · rename_i found
      exact iff_of_true rfl (both.mp found)
    · rename_i nothing
      exact iff_of_false (by simp) (mt both.mpr nothing)
  · split
    · intro _
      have listed := appendDifferent_eq_nil (withoutGateway self) (conns.1 ∩ conns.2)
        fun x inside => specified_ends ((offends x).mp inside).1
      simp only [offends] at listed
      simpa [ComparisonAnswer.connections, OutputExplanation.connections] using listed
    · exact fun given => absurd given (by simp)
  · split
    · exact fun clean => absurd rfl clean
    · exact fun _ => rfl

end Verdicts

section Allowed

variable {P E κ : Type} [Fintype E] [DecidableEq E] [Peers E] [ConnectivityProperties P E κ]
  {config : NetworkConfig P} {policies_list : List (Policy P)} {x : Flow E κ}

/-- What the policies of the only layer collect for ingress is allowed from IP addresses, if it is
allowed at all. -/
theorem k8sCalico_allowed (only : config.policies_container.layers = [(.K8s_Calico, policies_list)])
    (collected : x ∈ (NetworkLayer.collectPoliciesConnsOptimized policies_list true
      fun _ => true).allowed_conns)
    (all : AllowedByAll config x) (src : Peers.kind x.src = .ipBlock)
    (dst : x.dst ∈ config.peer_container.getAllPeersGroup) :
    x ∈ (config.allowedConnections none .onlyAllowedConnections).allowed_conns := by
  have asked : PolicyConnectionsFilter.onlyAllowedConnections.calc_allowed = true := rfl
  have asked_all : PolicyConnectionsFilter.onlyAllowedConnections.calc_all_allowed = true := rfl
  have kept : x ∈ (config.allowedConnections none .onlyAllowedConnections).all_allowed_conns :=
    (mem_all_allowed asked_all).mpr ⟨all, fun _ => not_cut_of_k8s only⟩
  have xgress : x ∈ (K8sCalicoNetworkLayer.allowedXgressConns policies_list true config.peer_container
      .onlyAllowedConnections).allowed_conns := by
    unfold K8sCalicoNetworkLayer.allowedXgressConns
    simp only [apply_ite PolicyConnections.allowed_conns, ite_self]
    have widened : ∀ more : P, x ∈ (NetworkLayer.collectPoliciesConnsOptimized policies_list true
        fun _ => true).allowed_conns ∪ more := fun _ => ExactSet.mem_union.mpr (Or.inl collected)
    split <;> split
    all_goals first | exact collected | exact widened _
  have layer : x ∈ (NetworkLayer.allowedConnections .K8s_Calico policies_list config.peer_container
      .onlyAllowedConnections).allowed_conns := by
    unfold NetworkLayer.allowedConnections NetworkLayer.allowedXgressConns
    simp only [asked, asked_all, if_true, ExactSet.mem_union, ExactSet.mem_inter, mem_makeConnProps]
    refine Or.inl ⟨xgress, Or.inr ?_⟩
    simp [ConnectivityCube.Admits, mem_allIps, src, dst]
  unfold NetworkConfig.allowedConnections at kept ⊢
  dsimp only at kept ⊢
  rw [if_pos asked] at kept ⊢
  rw [only] at kept ⊢
  apply ExactSet.mem_inter.mpr ⟨_, kept⟩
  exact ExactSet.mem_union.mpr (Or.inr layer)

end Allowed

section OnePod

/-- Finite sets of connections, which are empty or one cube. -/
instance {E κ : Type} [Fintype E] [DecidableEq E] [Fintype κ] [DecidableEq κ] :
    PropsCubes (FlowSet E κ) E κ where
  cubes props := if ExactSet.bool props then [⟨none, none, props⟩] else []
  mem_cubes props x := by
    have some : x ∈ props → ExactSet.bool props = true := fun inside => ExactSet.bool_iff.mpr ⟨x, inside⟩
    split
    · simp [PeersCube.Admits]
    · rename_i none
      simpa using fun inside => none (some inside)
  inhabited props cube member := by
    split at member
    · rename_i some
      obtain ⟨x, inside⟩ := ExactSet.bool_iff.mp some
      obtain rfl := List.mem_singleton.mp member
      exact ⟨x, nofun, nofun, inside⟩
    · cases member

instance : PeerNames PeerKind where
  str
    | .pod => "pod"
    | .hostEP => "hostEP"
    | .dnsEntry => "dnsEntry"
    | .ipBlock => "ipBlock"
  rep peers := if .pod ∈ peers then "pod" else ""

/-- What the specification is about are the connections of a livesim peer. -/
def livesimPod : NamedConfigsQuery (FlowSet PeerKind Unit) where
  config1 := configOf onePod [looplessPolicy]
  config2 := configOf onePod []
  name1 := "forbidden"
  name2 := "cluster"
  livesim_peers := {.pod}

theorem livesimPod_specified : Specified livesimPod ⟨.ipBlock, .pod, tcp, ()⟩ := by
  have possible : Possible onePod (⟨.ipBlock, .pod, tcp, ()⟩ : Flow PeerKind Unit) :=
    ⟨by decide, by decide, by decide⟩
  have layers : (configOf onePod [looplessPolicy]).policies_container.layers =
      [(.K8s_Calico, [looplessPolicy])] := rfl
  have plain : cloneWithoutGatewayLayers livesimPod.config1 = configOf onePod [looplessPolicy] := rfl
  have collected : (⟨.ipBlock, .pod, tcp, ()⟩ : Flow PeerKind Unit) ∈
      (NetworkLayer.collectPoliciesConnsOptimized [looplessPolicy] true fun _ => true).allowed_conns := by
    obtain ⟨-, verdict⟩ : (NetworkLayer.collectPoliciesConnsOptimized [looplessPolicy] true
      fun _ => true).decisions.Disjoint ∧ _ := NetworkLayer.collected_verdict
    have layered : ∀ policy ∈ [looplessPolicy], IsK8sCalico policy := List.forall_mem_singleton.mpr rfl
    have decided : [looplessPolicy].findSome? (Policy.verdictOn · true
        (⟨.ipBlock, .pod, tcp, ()⟩ : Flow PeerKind Unit)) = some .allow :=
      (findSome_verdictOn layered).trans (loopless_verdict.trans (if_pos ⟨rfl, rfl⟩))
    rw [← verdict, Decisions.verdict_allow] at decided
    exact decided
  have all : AllowedByAll (configOf onePod [looplessPolicy])
      (⟨.ipBlock, .pod, tcp, ()⟩ : Flow PeerKind Unit) := (loopless_allowed possible).mpr fun _ => rfl
  unfold Specified
  rw [plain]
  refine ⟨⟨?_, ?_⟩, fun _ => ⟨?_, ?_⟩⟩
  · exact k8sCalico_allowed layers collected all rfl (by decide)
  · rintro (⟨_, other | dns⟩ | dns)
    · cases other
    · exact absurd dns (by decide)
    · exact absurd dns (by decide)
  · exact fun v6 => absurd v6.2 (by decide)
  · exact fun v6 => absurd v6.2 (by decide)

theorem livesimPod_allowed : AllowedBySecond livesimPod ⟨.ipBlock, .pod, tcp, ()⟩ := by
  have possible : Possible onePod (⟨.ipBlock, .pod, tcp, ()⟩ : Flow PeerKind Unit) :=
    ⟨by decide, by decide, by decide⟩
  refine ⟨⟨?_, ?_⟩, fun _ => ⟨?_, ?_⟩⟩
  · exact (mem_all_allowed rfl).mpr ⟨noPolicy_allowed possible, nofun⟩
  · exact livesimPod_specified.1.2
  · exact fun v6 => absurd v6.2 (by decide)
  · exact fun v6 => absurd v6.2 (by decide)

end OnePod

end Nca.NetworkConfig
