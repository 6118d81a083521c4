import Nca.CoreDS.ConnectivityProperties
import Nca.FWRules.MinimizeCsFWRules

/-!
`MinimizeFWRules`: the firewall rules of connectivity properties. The cubes are grouped by their peers
and then by their connections, and the rules of each connection set may borrow from the connection sets
that contain it. Read back, the rules are the properties, up to connections of endpoints with themselves.
-/

namespace Nca.FWRules
open CoreDS Lib Lib.Python LabeledPeers

/-- One cube of connectivity properties: its peers, its protocols and the other dimensions. -/
structure RuleCube (P E : Type) where
  src_peers : PeerSet E
  dst_peers : PeerSet E
  protocols : ProtocolSet
  rest : P

inductive ConnectivityRestriction where
  | TCP
  | nonTCP
  deriving DecidableEq

/-- The protocols that stand for all protocols in the properties that are made without peers. -/
def relevantProtocols : Option ConnectivityRestriction → ProtocolSet
  | none => ∅
  | some .TCP => {tcp}
  | some .nonTCP => getNonTcpProtocols

/-- The protocols of the connections that rules stand for. -/
def ruleProtocols : Option ConnectivityRestriction → ProtocolSet
  | none => Finset.univ
  | some restriction => relevantProtocols (some restriction)

section Rules

variable {P E κ : Type}

/-- How connectivity properties are gone over, and the sort of the connection sets. -/
structure RulesOrders (P E : Type) extends GroupingOrders E where
  props_cubes : P → List (RuleCube P E)
  sort : List (P × PeerProps E) → List (P × PeerProps E)

variable [Fintype E] [DecidableEq E] [RulePeers E] [ContainedIn P E κ]

/-- The connection lies in the cube. -/
def RuleCube.Admits (cube : RuleCube P E) (x : Flow E κ) : Prop :=
  x.src ∈ cube.src_peers ∧ x.dst ∈ cube.dst_peers ∧ x.protocol ∈ cube.protocols ∧ x ∈ cube.rest

/-- The cubes of properties are their connections, none is empty, and the other dimensions say nothing
about peers and protocols. A sort leaves everything where it is or moves it. -/
structure RulesOrders.Sound (orders : RulesOrders P E) : Prop where
  grouping : orders.toGroupingOrders.Sound
  mem_cubes : ∀ (props : P) (x : Flow E κ), x ∈ props ↔ ∃ cube ∈ orders.props_cubes props, cube.Admits x
  inhabited_cubes : ∀ (props : P), ∀ cube ∈ orders.props_cubes props, ∃ x : Flow E κ, cube.Admits x
  rest_free : ∀ (props : P), ∀ cube ∈ orders.props_cubes props, ∀ x y : Flow E κ,
    x.rest = y.rest → x ∈ cube.rest → y ∈ cube.rest
  sort : ∀ items, (orders.sort items).Perm items

/-- `extract_src_dst_peers_from_cube`: the connections of a cube without its peers, where the relevant
protocols stand for all protocols. -/
def extractConns (relevant_protocols : ProtocolSet) (cube : RuleCube P E) : P :=
  if cube.protocols = relevant_protocols then cube.rest
  else cube.rest ∩ makeConnProps { protocols := some cube.protocols }

/-- One cube of the loop of `get_minimized_firewall_rules_from_props`. -/
def addCubeConns (relevant_protocols : ProtocolSet) (peers_to_props : List (PeerProps E × P))
    (cube : RuleCube P E) : List (PeerProps E × P) :=
  let peers := cube.src_peers ×ˢ cube.dst_peers
  Dict.set peers_to_props peers
    ((Dict.get peers_to_props peers).getD ∅ ∪ extractConns relevant_protocols cube)

def propsToPeers (peers_to_props : List (PeerProps E × P)) : List (P × PeerProps E) :=
  peers_to_props.foldl (fun props_to_peers e => SetDict.update props_to_peers e.2 e.1) []

/-- `_build_props_containment_map`. -/
def buildPropsContainmentMap (props_sorted_by_size : List (P × PeerProps E)) : List (P × PeerProps E) :=
  (props_sorted_by_size ×ˢ props_sorted_by_size).foldl (fun props_containment_map (item, other) =>
    if other.1 ≠ item.1 ∧ containedIn item.1 other.1 = true then
      SetDict.update props_containment_map item.1 other.2
    else props_containment_map) []

variable (orders : RulesOrders P E) (cluster_info : ClusterInfo E) (fwRulesGroupByLabelSinglePod : Bool)
  (fuel : Nat)

/-- One connection set of the loop of `minimize_firewall_rules`. -/
def addMinimizedRules (props_containment_map : List (P × PeerProps E))
    (fw_rules_map : List (P × List (FWRule E P))) (item : P × PeerProps E) :
    Except Failure (List (P × List (FWRule E P))) :=
  if item.1 = ∅ then pure fw_rules_map
  else do
    let fw_rules ← computeMinimizedFwRulesPerProp orders.toGroupingOrders cluster_info
      fwRulesGroupByLabelSinglePod fuel item.1 item.2 (SetDict.find props_containment_map item.1)
    pure (Dict.set fw_rules_map item.1 fw_rules)

def minimizeFirewallRules (props_sorted_by_size : List (P × PeerProps E)) :
    Except Failure (List (P × List (FWRule E P))) :=
  props_sorted_by_size.foldlM (addMinimizedRules orders cluster_info fwRulesGroupByLabelSinglePod fuel
    (buildPropsContainmentMap props_sorted_by_size)) []

def getMinimizedFirewallRulesFromProps (props : P)
    (connectivity_restriction : Option ConnectivityRestriction) :
    Except Failure (List (P × List (FWRule E P))) :=
  let peers_to_props :=
    (orders.props_cubes props).foldl (addCubeConns (relevantProtocols connectivity_restriction)) []
  let props_sorted_by_size := orders.sort (propsToPeers peers_to_props)
  minimizeFirewallRules orders cluster_info fwRulesGroupByLabelSinglePod fuel props_sorted_by_size

/-- The connections that one rule stands for. -/
def ruleProps (connectivity_restriction : Option ConnectivityRestriction) (fw_rule : FWRule E P) : P :=
  makeConnProps {
    src_peers := some (fw_rule.src.getPeerSet cluster_info)
    dst_peers := some (fw_rule.dst.getPeerSet cluster_info)
    protocols := some (ruleProtocols connectivity_restriction) } ∩ fw_rule.props

def fwRulesToConnProps (fw_rules_map : List (P × List (FWRule E P)))
    (connectivity_restriction : Option ConnectivityRestriction) : P :=
  (fw_rules_map.flatMap Prod.snd).foldl
    (fun res fw_rule => res ∪ ruleProps cluster_info connectivity_restriction fw_rule) ∅

end Rules

section Grouping

variable {P E κ : Type} [DecidableEq E] [ContainedIn P E κ] {props : P} {x : Flow E κ}

/-- The peers of a connection. -/
def flowEnds (x : Flow E κ) : E × E := (x.src, x.dst)

/-- Some entry of a table of connection sets has the peers and the connection. -/
def ConnsOf (peers_to_props : List (PeerProps E × P)) (peers : PeerProps E) (x : Flow E κ) : Prop :=
  ∃ e ∈ peers_to_props, e.1 = peers ∧ x ∈ e.2

theorem connsOf_add {relevant_protocols : ProtocolSet} {cube : RuleCube P E}
    {peers_to_props : List (PeerProps E × P)} {peers : PeerProps E} :
    ConnsOf (addCubeConns relevant_protocols peers_to_props cube) peers x ↔
      ConnsOf peers_to_props peers x ∨
        cube.src_peers ×ˢ cube.dst_peers = peers ∧ x ∈ extractConns relevant_protocols cube := by
  let inside := fun conns : P => x ∈ conns
  apply Dict.exists_set (p := inside)
  show x ∈ _ ∪ _ ↔ _
  rw [ExactSet.mem_union]
  cases Dict.get peers_to_props (cube.src_peers ×ˢ cube.dst_peers) <;> simp [inside]

theorem connsOf_cubes {relevant_protocols : ProtocolSet} {cubes : List (RuleCube P E)}
    {peers : PeerProps E} : ConnsOf (cubes.foldl (addCubeConns relevant_protocols) []) peers x ↔
      ∃ cube ∈ cubes, cube.src_peers ×ˢ cube.dst_peers = peers ∧
        x ∈ extractConns relevant_protocols cube := by
  apply foldl_prefix fun before table => ConnsOf table peers x ↔
    ∃ cube ∈ before, cube.src_peers ×ˢ cube.dst_peers = peers ∧
      x ∈ extractConns relevant_protocols cube
  · simp [ConnsOf]
  · intro before cube table _ so_far
    rw [connsOf_add, so_far]
    simp only [List.mem_append, List.mem_singleton, or_and_right, exists_or, exists_eq_left]

theorem relates_propsToPeers {peers_to_props : List (PeerProps E × P)} {pair : E × E} :
    SetDict.Relates (propsToPeers peers_to_props) props pair ↔
      ∃ e ∈ peers_to_props, e.2 = props ∧ pair ∈ e.1 := by
  apply foldl_prefix fun (before : List (PeerProps E × P)) table =>
    SetDict.Relates table props pair ↔ ∃ e ∈ before, e.2 = props ∧ pair ∈ e.1
  · simp [SetDict.Relates]
  · intro before e table _ so_far
    rw [SetDict.relates_update, so_far]
    simp only [List.mem_append, List.mem_singleton, or_and_right, exists_or, exists_eq_left]

/-- The table of connection sets: the keys are different and no set of peers is empty. -/
structure Tabled (props_to_peers : List (P × PeerProps E)) : Prop where
  unique : (Dict.keys props_to_peers).Nodup
  filled : ∀ item ∈ props_to_peers, item.2 ≠ ∅

theorem propsToPeers_tabled {peers_to_props : List (PeerProps E × P)}
    (filled : ∀ e ∈ peers_to_props, e.1 ≠ ∅) : Tabled (propsToPeers peers_to_props) := by
  apply foldl_prefix fun _ table => Tabled table
  · exact ⟨List.nodup_nil, List.forall_mem_nil _⟩
  · intro _ e table listed so_far
    refine ⟨Dict.nodup_keys_set so_far.unique _ _, ?_⟩
    intro item member
    cases Dict.mem_set member with
    | inl before => exact so_far.filled item before
    | inr now =>
      rw [now]
      intro nothing
      exact filled e listed (Finset.union_eq_empty.mp nothing).2

/-- The keys of the first table are the peers of cubes. -/
theorem addCubeConns_keys {relevant_protocols : ProtocolSet} {cubes : List (RuleCube P E)}
    {e : PeerProps E × P} : e ∈ cubes.foldl (addCubeConns relevant_protocols) [] →
      ∃ cube ∈ cubes, cube.src_peers ×ˢ cube.dst_peers = e.1 := by
  apply foldl_prefix fun (before : List (RuleCube P E)) table => e ∈ table →
    ∃ cube ∈ before, cube.src_peers ×ˢ cube.dst_peers = e.1
  · exact fun member => absurd member List.not_mem_nil
  · intro before cube table _ so_far member
    cases Dict.mem_set member with
    | inl old =>
      obtain ⟨cube', earlier, product⟩ := so_far old
      exact ⟨cube', List.mem_append_left _ earlier, product⟩
    | inr now => exact ⟨cube, List.mem_append_right _ List.mem_cons_self, (congrArg Prod.fst now).symm⟩

/-- Pairs are borrowed only from connection sets that contain this one. -/
theorem containment_origin {props_sorted_by_size : List (P × PeerProps E)} {pair : E × E}
    (member : pair ∈ SetDict.find (buildPropsContainmentMap props_sorted_by_size) props) :
    ∃ other ∈ props_sorted_by_size, (∀ x : Flow E κ, x ∈ props → x ∈ other.1) ∧ pair ∈ other.2 := by
  have related := SetDict.relates_of_find member
  revert related
  unfold buildPropsContainmentMap
  apply foldl_prefix fun _ table => SetDict.Relates table props pair →
    ∃ other ∈ props_sorted_by_size, (∀ x : Flow E κ, x ∈ props → x ∈ other.1) ∧ pair ∈ other.2
  · intro ⟨e, listed, _⟩
    exact absurd listed List.not_mem_nil
  · intro _ (item, other) table listed so_far related
    dsimp only at related
    split at related
    case isTrue contains =>
      cases SetDict.relates_update.mp related with
      | inl before => exact so_far before
      | inr now =>
        obtain ⟨rfl, inside⟩ := now
        exact ⟨other, (List.mem_product.mp listed).2,
          (ContainedIn.containedIn_iff item.1 other.1).mp contains.2, inside⟩
    case isFalse => exact so_far related

end Grouping

section Extract

variable {P E κ : Type} [ContainedIn P E κ] {x : Flow E κ}
  {connectivity_restriction : Option ConnectivityRestriction}

theorem mem_extract_of_admits {relevant_protocols : ProtocolSet} {cube : RuleCube P E}
    (admits : cube.Admits x) : x ∈ extractConns relevant_protocols cube := by
  obtain ⟨-, -, protocol, rest⟩ := admits
  unfold extractConns
  split
  case isTrue => exact rest
  case isFalse => simpa [ConnectivityCube.Admits] using ⟨rest, protocol⟩

/-- Protocols that stand for all are read back as what they are. -/
theorem protocol_of_extract {cube : RuleCube P E} (inhabited : ∃ y : Flow E κ, cube.Admits y)
    (protocol : x.protocol ∈ ruleProtocols connectivity_restriction)
    (inside : x ∈ extractConns (relevantProtocols connectivity_restriction) cube) :
    x.protocol ∈ cube.protocols ∧ x ∈ cube.rest := by
  unfold extractConns at inside
  split at inside
  case isTrue all =>
    refine ⟨?_, inside⟩
    rw [all]
    cases connectivity_restriction with
    | none =>
      obtain ⟨y, -, -, some, -⟩ := inhabited
      rw [all] at some
      exact absurd some (Finset.notMem_empty _)
    | some restriction => exact protocol
  case isFalse =>
    rw [ExactSet.mem_inter, mem_makeConnProps] at inside
    exact ⟨inside.2.2.2 _ rfl, inside.1⟩

end Extract

section Tables

variable {P E κ : Type} [DecidableEq E] [RulePeers E] [ContainedIn P E κ] {orders : RulesOrders P E}
  {props : P} {x : Flow E κ} {connectivity_restriction : Option ConnectivityRestriction}

/-- The connection sets of properties with the peers they connect. -/
def connectionSets (orders : RulesOrders P E) (props : P)
    (connectivity_restriction : Option ConnectivityRestriction) : List (P × PeerProps E) :=
  propsToPeers
    ((orders.props_cubes props).foldl (addCubeConns (relevantProtocols connectivity_restriction)) [])

omit [DecidableEq E] in
theorem cube_peers (sound : orders.Sound) {cube : RuleCube P E}
    (listed : cube ∈ orders.props_cubes props) {pair : E × E}
    (inside : pair ∈ cube.src_peers ×ˢ cube.dst_peers) (protocol : x.protocol ∈ cube.protocols)
    (rest : x ∈ cube.rest) (same : flowEnds x = pair) : x ∈ props := by
  rw [← same] at inside
  obtain ⟨source, target⟩ := Finset.mem_product.mp inside
  exact (sound.mem_cubes props x).mpr ⟨cube, listed, source, target, protocol, rest⟩

/-- A connection set and its peers have only connections of the properties. -/
theorem connectionSets_sound (sound : orders.Sound) {item : P × PeerProps E}
    (listed : item ∈ connectionSets orders props connectivity_restriction) (peers : flowEnds x ∈ item.2)
    (conns : x ∈ item.1) (protocol : x.protocol ∈ ruleProtocols connectivity_restriction) : x ∈ props := by
  obtain ⟨e, present, same, inside⟩ := relates_propsToPeers.mp ⟨item, listed, rfl, peers⟩
  obtain ⟨cube, cubes, product, extracted⟩ := connsOf_cubes.mp ⟨e, present, rfl, same ▸ conns⟩
  obtain ⟨protocols, rest⟩ :=
    protocol_of_extract (sound.inhabited_cubes props cube cubes) protocol extracted
  exact cube_peers sound cubes (product ▸ inside) protocols rest rfl

/-- Every connection is in some connection set that has its peers. -/
theorem connectionSets_complete (sound : orders.Sound)
    (connectivity_restriction : Option ConnectivityRestriction) (inside : x ∈ props) :
    ∃ item ∈ connectionSets orders props connectivity_restriction, flowEnds x ∈ item.2 ∧ x ∈ item.1 := by
  obtain ⟨cube, listed, admits⟩ := (sound.mem_cubes props x).mp inside
  obtain ⟨e, present, product, conns⟩ := connsOf_cubes.mpr
    ⟨cube, listed, rfl, mem_extract_of_admits admits⟩
  have member : flowEnds x ∈ e.1 := product ▸ Finset.mem_product.mpr ⟨admits.1, admits.2.1⟩
  obtain ⟨item, listed, same, peers⟩ := relates_propsToPeers.mpr ⟨e, present, rfl, member⟩
  exact ⟨item, listed, peers, same ▸ conns⟩

/-- The peers of a connection set have some connection in the properties. -/
theorem connectionSets_pairs (sound : orders.Sound) {item : P × PeerProps E}
    (listed : item ∈ connectionSets orders props connectivity_restriction) {pair : E × E}
    (peers : pair ∈ item.2) : ∃ x : Flow E κ, x ∈ props ∧ flowEnds x = pair := by
  obtain ⟨e, present, same, inside⟩ := relates_propsToPeers.mp ⟨item, listed, rfl, peers⟩
  obtain ⟨cube, cubes, product⟩ := addCubeConns_keys present
  obtain ⟨y, -, -, protocol, rest⟩ := sound.inhabited_cubes props cube cubes
  let x : Flow E κ := ⟨pair.1, pair.2, y.protocol, y.rest⟩
  exact ⟨x, cube_peers sound cubes (product ▸ inside) protocol
    (sound.rest_free props cube cubes y x rfl rest) rfl, rfl⟩

theorem connectionSets_tabled (sound : orders.Sound) (props : P)
    (connectivity_restriction : Option ConnectivityRestriction) :
    Tabled (connectionSets orders props connectivity_restriction) := by
  apply propsToPeers_tabled
  intro e listed
  obtain ⟨cube, cubes, product⟩ := addCubeConns_keys listed
  obtain ⟨x, source, target, -⟩ := sound.inhabited_cubes props cube cubes
  rw [← product]
  exact Finset.ne_empty_of_mem (Finset.mk_mem_product source target)

end Tables

section Map

variable {P E κ : Type} [Fintype E] [DecidableEq E] [RulePeers E] [ContainedIn P E κ]
  {orders : RulesOrders P E} {all_peers : List E} {allowed_labels : List Str}
  {fwRulesGroupByLabelSinglePod : Bool} {fuel : Nat} {props : P}
  {connectivity_restriction : Option ConnectivityRestriction}

/-- The map has minimized rules for the connection sets that are not empty, and for nothing else. -/
structure MinimizedMap (cluster_info : ClusterInfo E) (containing : P → PeerProps E)
    (items : List (P × PeerProps E)) (fw_rules_map : List (P × List (FWRule E P))) : Prop where
  all : ∀ item ∈ items, item.1 ≠ ∅ → ∃ e ∈ fw_rules_map, e.1 = item.1
  only : ∀ e ∈ fw_rules_map, ∃ item ∈ items, item.1 = e.1 ∧
    MinimizedFor cluster_info item.1 item.2 (containing item.1) e.2

theorem minimizeFirewallRules_exact (sound : orders.Sound) (enough : Fintype.card E < fuel) {address : E}
    (kind : Peers.kind address = .ipBlock) {items : List (P × PeerProps E)}
    (unique : (Dict.keys items).Nodup) (given : ∀ item ∈ items,
      RulePairs (ClusterInfo.init all_peers allowed_labels) item.2
        (SetDict.find (buildPropsContainmentMap items) item.1)) :
    Returns (minimizeFirewallRules orders (ClusterInfo.init all_peers allowed_labels)
        fwRulesGroupByLabelSinglePod fuel items)
      (MinimizedMap (ClusterInfo.init all_peers allowed_labels)
        (SetDict.find (buildPropsContainmentMap items)) items) := by
  let cluster_info := ClusterInfo.init all_peers allowed_labels
  apply returns_foldlM (MinimizedMap cluster_info (SetDict.find (buildPropsContainmentMap items)))
  · exact ⟨List.forall_mem_nil _, List.forall_mem_nil _⟩
  · intro before item after fw_rules_map whole so_far
    have listed : item ∈ items := whole ▸ List.mem_append_right _ List.mem_cons_self
    have later : ∀ e ∈ fw_rules_map, e.1 ≠ item.1 := by
      intro e present same
      obtain ⟨other, earlier, keys, -⟩ := so_far.only e present
      rw [whole, Dict.keys, List.map_append, List.map_cons, List.nodup_append] at unique
      exact unique.2.2 _ (List.mem_map_of_mem earlier) _ List.mem_cons_self (keys.trans same)
    unfold addMinimizedRules
    apply returns_ite
    · intro nothing
      refine returns_pure ⟨?_, ?_⟩
      · intro other member some
        cases List.mem_append.mp member with
        | inl earlier => exact so_far.all other earlier some
        | inr last => exact absurd (List.mem_singleton.mp last ▸ nothing) some
      · intro e present
        obtain ⟨other, earlier, made⟩ := so_far.only e present
        exact ⟨other, List.mem_append_left _ earlier, made⟩
    · intro some
      apply returns_bind (minimizedFor_returns sound.grouping enough kind (given item listed))
      intro fw_rules made
      rw [Dict.set_fresh _ later]
      refine returns_pure ⟨?_, ?_⟩
      · intro other member some
        cases List.mem_append.mp member with
        | inl earlier =>
          obtain ⟨e, present, same⟩ := so_far.all other earlier some
          exact ⟨e, List.mem_append_left _ present, same⟩
        | inr last =>
          rw [List.mem_singleton.mp last]
          exact ⟨_, List.mem_append_right _ List.mem_cons_self, rfl⟩
      · intro e present
        cases List.mem_append.mp present with
        | inl old =>
          obtain ⟨other, earlier, made⟩ := so_far.only e old
          exact ⟨other, List.mem_append_left _ earlier, made⟩
        | inr new =>
          rw [List.mem_singleton.mp new]
          exact ⟨item, List.mem_append_right _ List.mem_cons_self, rfl, made⟩

/-- Properties whose endpoints are known, that connect no two addresses and have only connections of
the restriction. -/
structure Minimizable (cluster_info : ClusterInfo E) (props : P)
    (connectivity_restriction : Option ConnectivityRestriction) : Prop where
  src_known : ∀ x : Flow E κ, x ∈ props → IsClusterEP x.src → x.src ∈ cluster_info.allPods
  dst_known : ∀ x : Flow E κ, x ∈ props → IsClusterEP x.dst → x.dst ∈ cluster_info.allPods
  external : ∀ x : Flow E κ, x ∈ props → ¬ (Peers.kind x.src = .ipBlock ∧ Peers.kind x.dst = .ipBlock)
  protocols : ∀ x : Flow E κ, x ∈ props → x.protocol ∈ ruleProtocols connectivity_restriction

omit [Fintype E] [RulePeers E] in
theorem mem_ruleProps {cluster_info : ClusterInfo E} {x : Flow E κ} {rule : FWRule E P} :
    x ∈ ruleProps cluster_info connectivity_restriction rule ↔ rule.Joins cluster_info (flowEnds x) ∧
      x.protocol ∈ ruleProtocols connectivity_restriction ∧ x ∈ rule.props := by
  simp [ruleProps, ConnectivityCube.Admits, FWRule.Joins, flowEnds, and_assoc]

omit [Fintype E] [RulePeers E] in
theorem mem_fwRulesToConnProps {cluster_info : ClusterInfo E} {x : Flow E κ}
    {fw_rules_map : List (P × List (FWRule E P))} :
    x ∈ fwRulesToConnProps cluster_info fw_rules_map connectivity_restriction ↔
      ∃ e ∈ fw_rules_map, ∃ rule ∈ e.2, rule.Joins cluster_info (flowEnds x) ∧
        x.protocol ∈ ruleProtocols connectivity_restriction ∧ x ∈ rule.props := by
  unfold fwRulesToConnProps
  rw [ExactSet.mem_foldl_union]
  simp only [ExactSet.not_mem_empty, false_or, List.mem_flatMap, mem_ruleProps]
  constructor
  · intro ⟨rule, ⟨e, present, rules⟩, stands⟩
    exact ⟨e, present, rule, rules, stands⟩
  · intro ⟨e, present, rule, rules, stands⟩
    exact ⟨rule, ⟨e, present, rules⟩, stands⟩

/-- What the rules stand for are the connections of the properties, and otherwise only connections of
endpoints with themselves. -/
def ReadBack (cluster_info : ClusterInfo E) (connectivity_restriction : Option ConnectivityRestriction) (props : P)
    (fw_rules_map : List (P × List (FWRule E P))) : Prop :=
  ∀ x : Flow E κ,
    (x ∈ props → x ∈ fwRulesToConnProps cluster_info fw_rules_map connectivity_restriction) ∧
    (x ∈ fwRulesToConnProps cluster_info fw_rules_map connectivity_restriction →
      x ∈ props ∨ x.src = x.dst ∧ IsClusterEP x.src)

theorem minimizedRules_readBack (sound : orders.Sound) (enough : Fintype.card E < fuel) {address : E}
    (kind : Peers.kind address = .ipBlock)
    (given : Minimizable (ClusterInfo.init all_peers allowed_labels) props connectivity_restriction) :
    Returns (getMinimizedFirewallRulesFromProps orders (ClusterInfo.init all_peers allowed_labels)
        fwRulesGroupByLabelSinglePod fuel props connectivity_restriction)
      (ReadBack (ClusterInfo.init all_peers allowed_labels) connectivity_restriction props) := by
  let cluster_info := ClusterInfo.init all_peers allowed_labels
  let table := connectionSets orders props connectivity_restriction
  have same : (orders.sort table).Perm table := sound.sort table
  have tabled := connectionSets_tabled sound props connectivity_restriction
  have unique : (Dict.keys (orders.sort table)).Nodup := (same.map Prod.fst).nodup_iff.mpr tabled.unique
  have ready : ∀ item ∈ orders.sort table, RulePairs cluster_info item.2
      (SetDict.find (buildPropsContainmentMap (orders.sort table)) item.1) := by
    intro item listed
    have origin : ∀ pair ∈ item.2 ∪ SetDict.find (buildPropsContainmentMap (orders.sort table)) item.1,
        ∃ x : Flow E κ, x ∈ props ∧ flowEnds x = pair := by
      intro pair member
      cases Finset.mem_union.mp member with
      | inl own => exact connectionSets_pairs sound (same.mem_iff.mp listed) own
      | inr borrowed =>
        obtain ⟨other, present, -, peers⟩ := containment_origin borrowed
        exact connectionSets_pairs sound (same.mem_iff.mp present) peers
    exact {
      some := tabled.filled item (same.mem_iff.mp listed)
      known := by
        intro pair member
        obtain ⟨x, inside, rfl⟩ := origin pair member
        exact ⟨given.src_known x inside, given.dst_known x inside⟩
      external := by
        intro pair member
        obtain ⟨x, inside, rfl⟩ := origin pair member
        exact given.external x inside }
  refine returns_mono (minimizeFirewallRules_exact sound enough kind unique ready) ?_
  intro fw_rules_map minimized x
  rw [mem_fwRulesToConnProps]
  refine ⟨?_, ?_⟩
  · intro inside
    obtain ⟨item, listed, peers, conns⟩ := connectionSets_complete sound connectivity_restriction inside
    have some : item.1 ≠ ∅ := by
      intro nothing
      rw [nothing] at conns
      exact ExactSet.not_mem_empty conns
    obtain ⟨e, present, key⟩ := minimized.all item (same.mem_iff.mpr listed) some
    obtain ⟨item', listed', key', made⟩ := minimized.only e present
    -- keys are unique, so the rules are those of this connection set
    have one : item' = item := by
      have values := Dict.get_of_mem unique (same.mem_iff.mpr listed)
      have values' := Dict.get_of_mem unique listed'
      rw [key'.trans key, values] at values'
      exact Prod.ext (key'.trans key) (Option.some.inj values').symm
    subst one
    obtain ⟨rule, rules, joins⟩ := made.covers _ peers
    exact ⟨e, present, rule, rules, joins, given.protocols x inside, made.props rule rules ▸ conns⟩
  · intro ⟨e, present, rule, rules, joins, protocol, conns⟩
    obtain ⟨item, listed, key, made⟩ := minimized.only e present
    rw [made.props rule rules] at conns
    rcases made.inside rule rules _ joins with own | borrowed | ⟨loop, endpoint, -⟩
    · exact .inl (connectionSets_sound sound (same.mem_iff.mp listed) own conns protocol)
    · obtain ⟨other, present, contains, peers⟩ := containment_origin borrowed
      exact .inl (connectionSets_sound sound (same.mem_iff.mp present) peers (contains x conns) protocol)
    · exact .inr ⟨loop, endpoint⟩

end Map

section Example

/-- The cubes of a finite set of connections, one for each of them. -/
noncomputable def singleOrders : RulesOrders (FlowSet PeerKind Unit) PeerKind where
  toGroupingOrders := canonicalOrders PeerKind
  props_cubes props :=
    let conns : Finset (Flow PeerKind Unit) := props
    conns.toList.map fun x => ⟨{x.src}, {x.dst}, {x.protocol}, makeConnProps {}⟩
  sort items := items

theorem singleOrders_sound : singleOrders.Sound where
  grouping := canonicalOrders_sound
  mem_cubes props x := by
    let conns : Finset (Flow PeerKind Unit) := props
    show ExactSet.contains conns x = true ↔ _
    rw [ExactSet.mem_finset]
    simp only [singleOrders, List.mem_map, exists_exists_and_eq_and, RuleCube.Admits, Finset.mem_singleton,
      mem_makeConnProps, ConnectivityCube.Admits]
    refine ⟨fun inside => ?_, fun single => ?_⟩
    · exact ⟨x, Finset.mem_toList.mpr inside, rfl, rfl, rfl, by simp⟩
    · obtain ⟨y, inside, source, target, protocol, -⟩ := single
      have same : x = y := by
        cases x
        cases y
        simp_all
      exact same ▸ Finset.mem_toList.mp inside
  inhabited_cubes props cube listed := by
    obtain ⟨x, -, rfl⟩ := List.mem_map.mp listed
    exact ⟨x, by simp [RuleCube.Admits, ConnectivityCube.Admits]⟩
  rest_free props cube listed x y _ _ := by
    obtain ⟨z, -, rfl⟩ := List.mem_map.mp listed
    simp [ConnectivityCube.Admits]
  sort _ := List.Perm.refl _

/-- One TCP connection from a pod to an address. -/
def podToAddress : FlowSet PeerKind Unit := ({⟨.pod, .ipBlock, tcp, ()⟩} : Finset (Flow PeerKind Unit))

theorem podToAddress_conn {x : Flow PeerKind Unit} (inside : x ∈ podToAddress) :
    x = ⟨.pod, .ipBlock, tcp, ()⟩ := Finset.mem_singleton.mp (ExactSet.mem_finset.mp inside)

end Example
end Nca.FWRules
