import Mathlib.Data.Finset.Basic
import Nca.Parsers.IstioSidecarYamlParser

/-!
Which sidecar a peer belongs to. The invariant of the parser relates its three lists, the peers
claimed so far and the namespaces with a default sidecar to the resources read so far; the walk over
the lists then takes away from each default sidecar what belongs to another one.
-/

namespace Nca.Parsers
open CoreDS Lib Lib.Python NetworkConfig Resources TopologyPeers IstioGenericYamlParser

/-- What of a resource decides which peers its sidecar gets. -/
structure SidecarResource where
  name : String
  ns : String
  workload_selector : Yaml

namespace SidecarResource

/-- The resource as a sidecar, if it is one. -/
def ofYaml (policy : Yaml) : Option SidecarResource :=
  match IstioSidecarYamlParser.sidecarFields policy with
  | .ok (some (name, ns)) => some ⟨name, namespaceName (ns.getD ""),
      (policy.field "spec").field "workloadSelector"⟩
  | _ => none

def specific (self : SidecarResource) : Bool := !self.workload_selector.isNull

def namespaceDefault (self : SidecarResource) : Bool :=
  !self.specific && decide (self.ns ≠ istio_root_namespace)

def globalDefault (self : SidecarResource) : Bool :=
  !self.specific && decide (self.ns = istio_root_namespace)

section

variable {E : Type} [TopologyPeers E]

/-- A workload selector selects peers of the resource's namespace with all its labels. -/
def Selects (self : SidecarResource) (e : E) : Prop :=
  InNamespace e self.ns ∧ CarriesLabels e self.workload_selector "labels"

/-- The sidecar of a peer: the one whose workload selector selects it, else the default sidecar of
its namespace, else the global default sidecar. -/
def Owns (resources : List SidecarResource) (self : SidecarResource) (e : E) : Prop :=
  if self.specific then self.Selects e
  else (∀ other ∈ resources, other.specific = true → ¬ other.Selects e) ∧
    if self.ns ≠ istio_root_namespace then InNamespace e self.ns
    else ∀ other ∈ resources, other.namespaceDefault = true → ¬ InNamespace e other.ns

end

/-- The order in which the sidecars are returned. -/
def arranged (resources : List SidecarResource) : List SidecarResource :=
  resources.filter specific ++ (resources.filter namespaceDefault ++ resources.filter globalDefault)

end SidecarResource

/-- What a peer container holds: pods, DNS entries, and host endpoints, which are global and have no
namespace. -/
def Endpoints {E : Type} [TopologyPeers E] (peer_container : PeerContainer E) : Prop :=
  ∀ e ∈ peer_container.peer_set, Peers.kind e = .pod ∧ is_global_peer e = false ∨
    Peers.kind e = .dnsEntry ∨
    Peers.kind e = .hostEP ∧ is_global_peer e = true ∧ peer_namespace e = none

namespace IstioSidecarYamlParser
open SidecarResource

variable {P E κ : Type} [ConnectivityProperties P E κ] [Fintype E] [DecidableEq E] [TopologyPeers E]
  {mesh : Mesh E}

/-- What a sidecar selects before it is compared with others. -/
def SelectsFirst (resource : SidecarResource) (e : E) : Prop :=
  if resource.specific then resource.Selects e
  else resource.ns ≠ istio_root_namespace → InNamespace e resource.ns

/-- The sidecar that is made of a resource. -/
structure MadeOf (mesh : Mesh E) (resource : SidecarResource) (sidecar : ParsedSidecar P E) : Prop where
  name : sidecar.name = resource.name
  ns : sidecar.ns = resource.ns
  default_sidecar : sidecar.default_sidecar = !resource.specific
  selected : ∀ e, e ∈ sidecar.selected_peers ↔
    e ∈ mesh.peer_set ∧ Peers.kind e = .pod ∧ SelectsFirst resource e

/-- The parser after some resources. -/
structure Collected (mesh : Mesh E) (resources : List SidecarResource)
    (parser : IstioSidecarYamlParser P E) : Prop where
  specific : List.Forall₂ (MadeOf mesh) (resources.filter specific) parser.specific_sidecars
  defaults : List.Forall₂ (MadeOf mesh) (resources.filter namespaceDefault) parser.default_sidecars
  globals : List.Forall₂ (MadeOf mesh) (resources.filter globalDefault)
    parser.global_default_sidecars
  claimed : ∀ e, e ∈ parser.peers_referenced_by_labels ↔
    ∃ sidecar ∈ parser.specific_sidecars, e ∈ sidecar.selected_peers
  apart : parser.specific_sidecars.Pairwise fun s t => Disjoint s.selected_peers t.selected_peers
  named : ∀ ns, ns ∈ parser.referenced_namespaces ↔
    ∃ resource ∈ resources, resource.specific = false ∧ resource.ns = ns
  single : (resources.filter fun resource => !resource.specific).Pairwise fun r s => r.ns ≠ s.ns

omit [Fintype E] [DecidableEq E] in
theorem collected_start : Collected mesh [] ({} : IstioSidecarYamlParser P E) where
  specific := .nil
  defaults := .nil
  globals := .nil
  claimed := by simp
  apart := .nil
  named := by simp
  single := .nil

omit [Fintype E] [DecidableEq E] in
/-- Host endpoints have no namespace, and a sidecar without a workload selector leaves out global
peers. -/
theorem applies_iff (endpoints : Endpoints mesh.toPeerContainer) {resource : SidecarResource}
    (proper : resource.specific = true → resource.ns ≠ istio_root_namespace) {e : E} :
    (e ∈ mesh.peer_set ∧ Peers.kind e ≠ .dnsEntry ∧
      Applies resource.ns resource.workload_selector "labels" e) ↔
    e ∈ mesh.peer_set ∧ Peers.kind e = .pod ∧ SelectsFirst resource e := by
  apply and_congr_right
  intro placed
  have no_labels : resource.specific = false → CarriesLabels e resource.workload_selector "labels" := by
    intro selectorless
    have null : resource.workload_selector = .null := by
      simpa [SidecarResource.specific, Yaml.isNull_iff] using selectorless
    simp [CarriesLabels, null, Yaml.field, Yaml.toDict]
  unfold Applies SelectsFirst Selects
  cases selector : resource.specific with
  | true =>
    have given : resource.workload_selector ≠ .null := by
      intro null
      simp [SidecarResource.specific, null, Yaml.isNull] at selector
    rw [if_pos rfl]
    constructor
    · rintro ⟨entry, _, carried, inside⟩
      have inside := inside (proper selector)
      rcases endpoints e placed with ⟨pod, _⟩ | dns | ⟨_, _, placeless⟩
      · exact ⟨pod, inside, carried⟩
      · exact absurd dns entry
      · obtain ⟨_, own, _⟩ := inside
        rw [placeless] at own
        cases own
    · rintro ⟨pod, inside, carried⟩
      exact ⟨by simp [pod], fun null => absurd null given, carried, fun _ => inside⟩
  | false =>
    have null : resource.workload_selector = .null := by
      simpa [SidecarResource.specific, Yaml.isNull_iff] using selector
    rw [if_neg Bool.false_ne_true]
    constructor
    · rintro ⟨entry, global, _, inside⟩
      rcases endpoints e placed with ⟨pod, _⟩ | dns | ⟨_, everywhere, _⟩
      · exact ⟨pod, inside⟩
      · exact absurd dns entry
      · rw [global null] at everywhere
        cases everywhere
    · rintro ⟨pod, inside⟩
      have local_peer : is_global_peer e = false := by
        rcases endpoints e placed with ⟨_, local_peer⟩ | dns | ⟨host, _⟩
        · exact local_peer
        · cases pod.symm.trans dns
        · cases pod.symm.trans host
      exact ⟨by simp [pod], fun _ => local_peer, no_labels selector, inside⟩

/-- The sidecar of a resource selects what the resource selects first, and has the namespace of the
root only without a workload selector. -/
theorem parseSelection_ok (endpoints : Endpoints mesh.toPeerContainer) {policy_name ns : String}
    {sidecar_spec : Yaml} {sidecar : ParsedSidecar P E}
    (parsed : parseSelection mesh policy_name ns sidecar_spec = .ok sidecar) :
    MadeOf mesh ⟨policy_name, ns, sidecar_spec.field "workloadSelector"⟩ sidecar := by
  unfold parseSelection at parsed
  obtain ⟨_, fields, parsed⟩ := bind_ok.mp parsed
  obtain ⟨workload_selector, read, parsed⟩ := bind_ok.mp parsed
  obtain ⟨_, global, parsed⟩ := bind_ok.mp parsed
  obtain ⟨selected_peers, selected, parsed⟩ := bind_ok.mp parsed
  obtain ⟨_, _, parsed⟩ := bind_ok.mp parsed
  obtain rfl := Except.ok.inj parsed
  obtain ⟨⟨entries, rfl⟩, field⟩ := Yaml.get_ok.mp read
  rw [field]
  have dict : workload_selector = .null ∨ ∃ entries, workload_selector = .dict entries := by
    obtain ⟨_, same, valid, _⟩ := checkFieldsValidity_ok.mp fields
    obtain rfl := Yaml.dict.inj same
    have typed := (valid ("workloadSelector", ⟨0, some .dict⟩) List.mem_cons_self).typed .dict rfl
    cases found : Dict.get entries "workloadSelector" with
    | none =>
      simp only [Yaml.field, found, Option.getD_none] at field
      exact Or.inl field.symm
    | some value =>
      simp only [Yaml.field, found, Option.getD_some] at field
      subst field
      cases value with
      | null => exact Or.inl rfl
      | dict inner => exact Or.inr ⟨inner, rfl⟩
      | _ => cases typed _ found rfl
  let resource : SidecarResource := ⟨policy_name, ns, workload_selector⟩
  have proper : resource.specific = true → resource.ns ≠ istio_root_namespace := by
    intro given root
    exact syntaxErrorIf_ok.mp global ⟨root, given⟩
  constructor
  · rfl
  · rfl
  · show workload_selector.isNull = !(!workload_selector.isNull)
    rw [Bool.not_not]
  · intro e
    rw [← applies_iff endpoints proper]
    exact updatePolicyPeers_ok dict selected

omit [Fintype E] [TopologyPeers E] in
theorem checkAndSave_ok {parser saved : IstioSidecarYamlParser P E} {sidecar : ParsedSidecar P E}
    (save : checkAndSaveSidecarIfTopPriority parser sidecar = .ok saved) :
    (sidecar.default_sidecar = true ∧ sidecar.ns ∉ parser.referenced_namespaces ∧
      saved = { parser with
        referenced_namespaces := insert sidecar.ns parser.referenced_namespaces }) ∨
    (sidecar.default_sidecar = false ∧
      Disjoint sidecar.selected_peers parser.peers_referenced_by_labels ∧
      saved = { parser with
        peers_referenced_by_labels := parser.peers_referenced_by_labels ∪ sidecar.selected_peers }) := by
  unfold checkAndSaveSidecarIfTopPriority at save
  dsimp only at save
  split at save
  case isTrue default_sidecar =>
    obtain ⟨_, fresh, save⟩ := bind_ok.mp save
    exact Or.inl ⟨default_sidecar, syntaxErrorIf_ok.mp fresh, (Except.ok.inj save).symm⟩
  case isFalse specific =>
    obtain ⟨_, fresh, save⟩ := bind_ok.mp save
    have apart := not_not.mp (syntaxErrorIf_ok.mp fresh)
    exact Or.inr ⟨Bool.not_eq_true _ ▸ specific, Finset.disjoint_iff_inter_eq_empty.mpr apart,
      (Except.ok.inj save).symm⟩

omit [Fintype E] in
theorem collected_append {resources : List SidecarResource} {resource : SidecarResource}
    {parser saved : IstioSidecarYamlParser P E} {sidecar : ParsedSidecar P E}
    (before : Collected mesh resources parser) (made : MadeOf mesh resource sidecar)
    (save : checkAndSaveSidecarIfTopPriority parser sidecar = .ok saved) :
    Collected mesh (resources ++ [resource]) (appendSidecar saved sidecar) := by
  have kind := made.default_sidecar
  rcases checkAndSave_ok save with ⟨isDefault, fresh, rfl⟩ | ⟨notDefault, apart, rfl⟩
  · have selectorless : resource.specific = false := by simpa [isDefault] using kind
    have named : ∀ ns, ns ∈ insert sidecar.ns parser.referenced_namespaces ↔
        ∃ other ∈ resources ++ [resource], other.specific = false ∧ other.ns = ns := by
      intro ns
      rw [Finset.mem_insert, before.named, made.ns, or_comm, @eq_comm _ ns]
      simp [or_and_right, exists_or, selectorless]
    have single : ((resources ++ [resource]).filter fun other => !other.specific).Pairwise
        fun r s => r.ns ≠ s.ns := by
      rw [List.filter_append, List.filter_cons_of_pos (by simp [selectorless]), List.filter_nil]
      apply List.pairwise_append.mpr
      refine ⟨before.single, List.pairwise_singleton _ _, ?_⟩
      intro other listed r last same
      obtain rfl := List.mem_singleton.mp last
      obtain ⟨among, without⟩ := List.mem_filter.mp listed
      apply fresh
      rw [before.named, made.ns]
      exact ⟨other, among, by simpa using without, same⟩
    have specific : (resources ++ [resource]).filter SidecarResource.specific =
        resources.filter SidecarResource.specific := by
      simp [selectorless]
    unfold appendSidecar
    rw [if_pos isDefault]
    by_cases root : sidecar.ns = istio_root_namespace
    · have isRoot : resource.ns = istio_root_namespace := made.ns ▸ root
      rw [if_pos root]
      constructor
      · rw [specific]
        exact before.specific
      · simpa [namespaceDefault, isRoot] using before.defaults
      · rw [List.filter_append,
          List.filter_cons_of_pos (by simp [globalDefault, selectorless, isRoot])]
        exact List.rel_append before.globals (.cons made .nil)
      · exact before.claimed
      · exact before.apart
      · exact named
      · exact single
    · have notRoot : resource.ns ≠ istio_root_namespace := made.ns ▸ root
      rw [if_neg root]
      constructor
      · rw [specific]
        exact before.specific
      · rw [List.filter_append,
          List.filter_cons_of_pos (by simp [namespaceDefault, selectorless, notRoot])]
        exact List.rel_append before.defaults (.cons made .nil)
      · simpa [globalDefault, notRoot] using before.globals
      · exact before.claimed
      · exact before.apart
      · exact named
      · exact single
  · have given : resource.specific = true := by simpa [notDefault] using kind
    unfold appendSidecar
    rw [if_neg (by simp [notDefault])]
    constructor
    · rw [List.filter_append, List.filter_cons_of_pos given]
      exact List.rel_append before.specific (.cons made .nil)
    · simpa [namespaceDefault, given] using before.defaults
    · simpa [globalDefault, given] using before.globals
    · intro e
      show e ∈ parser.peers_referenced_by_labels ∪ sidecar.selected_peers ↔ _
      rw [Finset.mem_union, before.claimed]
      simp [or_and_right, exists_or]
    · apply List.pairwise_append.mpr
      refine ⟨before.apart, List.pairwise_singleton _ _, ?_⟩
      intro other listed last member
      obtain rfl := List.mem_singleton.mp member
      apply Finset.disjoint_left.mpr
      intro e claimed selected
      exact Finset.disjoint_left.mp apart selected ((before.claimed e).mpr ⟨other, listed, claimed⟩)
    · intro ns
      rw [before.named]
      simp [or_and_right, exists_or, given]
    · simpa [given] using before.single

/-- One resource. -/
theorem parsePolicy_step (endpoints : Endpoints mesh.toPeerContainer) {policy : Yaml}
    {resources : List SidecarResource} {parser next : IstioSidecarYamlParser P E}
    (before : Collected mesh resources parser) (step : parsePolicy mesh parser policy = .ok next) :
    Collected mesh (resources ++ (SidecarResource.ofYaml policy).toList) next := by
  unfold parsePolicy at step
  obtain ⟨fields, read, step⟩ := bind_ok.mp step
  unfold SidecarResource.ofYaml
  rw [read]
  cases fields with
  | none =>
    obtain rfl := Except.ok.inj step
    simpa using before
  | some fields =>
    obtain ⟨policy_name, policy_ns⟩ := fields
    obtain ⟨sidecar_spec, spec, step⟩ := bind_ok.mp step
    obtain ⟨res_policy, selection, step⟩ := bind_ok.mp step
    obtain ⟨saved, save, step⟩ := bind_ok.mp step
    obtain ⟨_, _, step⟩ := bind_ok.mp step
    obtain ⟨_, _, step⟩ := bind_ok.mp step
    obtain ⟨egress_rules, _, step⟩ := bind_ok.mp step
    obtain ⟨_, _, step⟩ := bind_ok.mp step
    obtain ⟨outbound_mode, _, step⟩ := bind_ok.mp step
    obtain rfl := Except.ok.inj step
    rw [(Yaml.get_ok.mp spec).2]
    have made := parseSelection_ok endpoints selection
    have whole : MadeOf mesh _ { res_policy with egress_rules, outbound_mode } :=
      ⟨made.name, made.ns, made.default_sidecar, made.selected⟩
    exact collected_append before whole save

/-- Every sidecar that the parser keeps is one whose properties can be created. -/
def AllParsed (mesh : Mesh E) (parser : IstioSidecarYamlParser P E) : Prop :=
  ∀ sidecar ∈ parser.specific_sidecars ++ parser.default_sidecars ++ parser.global_default_sidecars,
    sidecar.toSidecarEgress.Parsed mesh.toPeerContainer

theorem parsePolicy_parsed (endpoints : Endpoints mesh.toPeerContainer) {policy : Yaml}
    {parser next : IstioSidecarYamlParser P E} (before : AllParsed mesh parser)
    (step : parsePolicy mesh parser policy = .ok next) : AllParsed mesh next := by
  unfold parsePolicy at step
  obtain ⟨fields, read, step⟩ := bind_ok.mp step
  cases fields with
  | none =>
    obtain rfl := Except.ok.inj step
    exact before
  | some fields =>
    obtain ⟨sidecar_spec, spec, step⟩ := bind_ok.mp step
    obtain ⟨res_policy, selection, step⟩ := bind_ok.mp step
    obtain ⟨saved, save, step⟩ := bind_ok.mp step
    obtain ⟨_, _, step⟩ := bind_ok.mp step
    obtain ⟨_, _, step⟩ := bind_ok.mp step
    obtain ⟨egress_rules, rules, step⟩ := bind_ok.mp step
    obtain ⟨_, _, step⟩ := bind_ok.mp step
    obtain ⟨outbound_mode, _, step⟩ := bind_ok.mp step
    obtain rfl := Except.ok.inj step
    have made := parseSelection_ok endpoints selection
    have fresh : SidecarEgress.Parsed mesh.toPeerContainer
        { res_policy.toSidecarEgress with egress_rules, outbound_mode } := by
      constructor
      · intro e selected
        obtain ⟨placed, pod, _⟩ := (made.selected e).mp selected
        exact ⟨placed, pod⟩
      · intro rule listed
        obtain ⟨_, _, parsed⟩ := forall₂_source (mapM_ok rules) listed
        exact (parseEgressRule_targets parsed).2
      · intro rule listed
        obtain ⟨_, _, parsed⟩ := forall₂_source (mapM_ok rules) listed
        exact (parseEgressRule_targets parsed).1
    have same : saved.specific_sidecars = parser.specific_sidecars ∧
        saved.default_sidecars = parser.default_sidecars ∧
        saved.global_default_sidecars = parser.global_default_sidecars := by
      rcases checkAndSave_ok save with ⟨_, _, rfl⟩ | ⟨_, _, rfl⟩ <;> exact ⟨rfl, rfl, rfl⟩
    intro sidecar listed
    have kept : sidecar ∈ parser.specific_sidecars ++ parser.default_sidecars ++
        parser.global_default_sidecars ∨
        sidecar = { res_policy with egress_rules, outbound_mode } := by
      unfold appendSidecar at listed
      rw [← same.1, ← same.2.1, ← same.2.2]
      split at listed
      · split at listed <;> simpa [or_assoc, or_comm, or_left_comm] using listed
      · simpa [or_assoc, or_comm, or_left_comm] using listed
    rcases kept with old | rfl
    · exact before sidecar old
    · exact fresh

/-- All resources. -/
theorem parsePolicies_parsed (endpoints : Endpoints mesh.toPeerContainer) {policies : List Yaml}
    {parser : IstioSidecarYamlParser P E} (run : policies.foldlM (parsePolicy mesh) {} = .ok parser) :
    AllParsed mesh parser :=
  foldlM_ok (fun _ parser => AllParsed mesh parser) (by simp [AllParsed])
    (fun _ _ _ _ before step => parsePolicy_parsed endpoints before step) run

/-- All resources. -/
theorem parsePolicies_collected (endpoints : Endpoints mesh.toPeerContainer) {policies : List Yaml}
    {parser : IstioSidecarYamlParser P E} (run : policies.foldlM (parsePolicy mesh) {} = .ok parser) :
    Collected mesh (policies.filterMap SidecarResource.ofYaml) parser := by
  refine foldlM_ok (fun read parser => Collected mesh (read.filterMap SidecarResource.ofYaml) parser)
    collected_start ?_ run
  intro read policy parser next before step
  rw [List.filterMap_append]
  have after := parsePolicy_step endpoints before step
  cases found : SidecarResource.ofYaml policy with
  | none => simpa [found] using after
  | some resource => simpa [found] using after

section Refinement

variable {order : SetOrder E} {fuel : Nat} {sidecars : List (ParsedSidecar P E)}

/-- The sidecar selects pods of the mesh. -/
def SelectsPods (mesh : Mesh E) (sidecar : ParsedSidecar P E) : Prop :=
  ∀ e ∈ sidecar.selected_peers, e ∈ mesh.peer_set ∧ Peers.kind e = .pod

/-- The same sidecar, which keeps of its peers those that the test holds for. -/
structure Keeps (test : E → Prop) (sidecar made : ParsedSidecar P E) : Prop where
  name : made.name = sidecar.name
  ns : made.ns = sidecar.ns
  selected : ∀ e, e ∈ made.selected_peers ↔ e ∈ sidecar.selected_peers ∧ test e

theorem createProps_spec (visits : order.Visits) (enough : mesh.peer_set.card < fuel)
    {sidecar : ParsedSidecar P E} (pods : SelectsPods mesh sidecar) :
    Returns (createProps mesh order fuel sidecar) (Keeps (fun _ => True) sidecar) := by
  have fewer : sidecar.selected_peers.card ≤ mesh.peer_set.card :=
    Finset.card_le_card fun e selected => (pods e selected).1
  obtain ⟨done, run, _⟩ := SidecarEgress.createOptEgressProps_rules visits pods
    (Nat.lt_of_le_of_lt fewer enough)
  unfold createProps
  rw [run, ok_bind]
  apply returns_pure
  have same := SidecarEgress.createOptEgressProps_selected run
  exact ⟨rfl, rfl, fun e => by simp [same]⟩

/-- The walk over sidecars that have no peers in common. -/
theorem refineSidecars_spec (visits : order.Visits) (enough : mesh.peer_set.card < fuel)
    (pods : ∀ sidecar ∈ sidecars, SelectsPods mesh sidecar)
    (apart : sidecars.Pairwise fun s t => Disjoint s.selected_peers t.selected_peers)
    (referenced_peers : PeerSet E) (res : List (ParsedSidecar P E)) :
    Returns (sidecars.foldlM (refineSidecar mesh order fuel) (referenced_peers, res)) fun out =>
      (∀ e, e ∈ out.1 ↔ e ∈ referenced_peers ∨ ∃ sidecar ∈ sidecars, e ∈ sidecar.selected_peers) ∧
      ∃ made, out.2 = res ++ made ∧
        List.Forall₂ (Keeps fun e => e ∉ referenced_peers) sidecars made := by
  induction sidecars generalizing referenced_peers res with
  | nil => exact returns_pure ⟨by simp, [], by simp, .nil⟩
  | cons sidecar rest ih =>
    obtain ⟨first, others⟩ := List.forall_mem_cons.mp pods
    obtain ⟨alone, apart⟩ := List.pairwise_cons.mp apart
    have remaining : (if sidecar.selected_peers ∩ referenced_peers ≠ ∅
        then sidecar.selected_peers \ referenced_peers else sidecar.selected_peers) =
        sidecar.selected_peers \ referenced_peers := by
      split
      case isTrue => rfl
      case isFalse nothing =>
        have none_common := Finset.disjoint_iff_inter_eq_empty.mpr (not_not.mp nothing)
        exact (Finset.sdiff_eq_self_of_disjoint none_common).symm
    have still : SelectsPods mesh { sidecar with
        selected_peers := sidecar.selected_peers \ referenced_peers } :=
      fun e selected => first e (Finset.mem_sdiff.mp selected).1
    rw [List.foldlM_cons, refineSidecar, remaining]
    obtain ⟨made, run, kept⟩ := createProps_spec visits enough still
    rw [run, ok_bind]
    apply returns_mono (ih others apart _ _)
    intro out ⟨referenced, all_made, whole, each⟩
    constructor
    · intro e
      rw [referenced, Finset.mem_union, Finset.mem_sdiff, List.exists_mem_cons_iff, or_assoc]
      by_cases before : e ∈ referenced_peers
      · simp [before]
      · simp [before]
    · refine ⟨made :: all_made, by simp [whole], .cons ?_ ?_⟩
      · refine ⟨kept.name, kept.ns, fun e => ?_⟩
        rw [kept.selected, and_true]
        exact Finset.mem_sdiff
      · apply (forall₂_members each).imp
        intro later made ⟨listed, kept⟩
        refine ⟨kept.name, kept.ns, fun e => ?_⟩
        rw [kept.selected]
        apply and_congr_right
        intro selected
        have elsewhere := Finset.disjoint_right.mp (alone later listed) selected
        simp [elsewhere]

end Refinement

section Priorities

variable {resources : List SidecarResource} {parser : IstioSidecarYamlParser P E} {order : SetOrder E}
  {fuel : Nat}

omit [Fintype E] [DecidableEq E] in
theorem selectsPods {sidecars : List (ParsedSidecar P E)}
    (made : List.Forall₂ (MadeOf mesh) resources sidecars) :
    ∀ sidecar ∈ sidecars, SelectsPods mesh sidecar := by
  intro sidecar listed e selected
  obtain ⟨resource, _, made⟩ := forall₂_source made listed
  obtain ⟨placed, pod, _⟩ := (made.selected e).mp selected
  exact ⟨placed, pod⟩

omit [Fintype E] [DecidableEq E] in
/-- The peers that some of the sidecars of a list select. -/
theorem someSelects_iff {test : SidecarResource → Bool} {sidecars : List (ParsedSidecar P E)}
    (made : List.Forall₂ (MadeOf mesh) (resources.filter test) sidecars) (e : E) :
    (∃ sidecar ∈ sidecars, e ∈ sidecar.selected_peers) ↔
      (e ∈ mesh.peer_set ∧ Peers.kind e = .pod) ∧
        ∃ resource ∈ resources, test resource = true ∧ SelectsFirst resource e := by
  rw [← forall₂_exists made fun resource sidecar made => (made.selected e).symm]
  constructor
  · intro ⟨resource, listed, placed, pod, selects⟩
    obtain ⟨listed, holds⟩ := List.mem_filter.mp listed
    exact ⟨⟨placed, pod⟩, resource, listed, holds, selects⟩
  · intro ⟨⟨placed, pod⟩, resource, listed, holds, selects⟩
    exact ⟨resource, List.mem_filter.mpr ⟨listed, holds⟩, placed, pod, selects⟩

omit [Fintype E] [DecidableEq E] in
theorem selectsFirst_specific {resource : SidecarResource} (given : resource.specific = true) {e : E} :
    SelectsFirst resource e ↔ resource.Selects e := by
  rw [SelectsFirst, if_pos given]

theorem namespaceDefault_iff {resource : SidecarResource} : resource.namespaceDefault = true ↔
    resource.specific = false ∧ resource.ns ≠ istio_root_namespace := by
  simp [namespaceDefault]

theorem globalDefault_iff {resource : SidecarResource} : resource.globalDefault = true ↔
    resource.specific = false ∧ resource.ns = istio_root_namespace := by
  simp [globalDefault]

omit [Fintype E] [DecidableEq E] in
theorem selectsFirst_default {resource : SidecarResource}
    (isDefault : resource.namespaceDefault = true) {e : E} :
    SelectsFirst resource e ↔ InNamespace e resource.ns := by
  obtain ⟨selectorless, named⟩ := namespaceDefault_iff.mp isDefault
  rw [SelectsFirst, if_neg (by simp [selectorless])]
  exact ⟨fun inside => inside named, fun inside _ => inside⟩

omit [Fintype E] [DecidableEq E] in
theorem selectsFirst_global {resource : SidecarResource} (isGlobal : resource.globalDefault = true)
    {e : E} : SelectsFirst resource e := by
  obtain ⟨selectorless, root⟩ := globalDefault_iff.mp isGlobal
  rw [SelectsFirst, if_neg (by simp [selectorless])]
  exact fun named => absurd root named

omit [Fintype E] [DecidableEq E] in
/-- No namespace has two sidecars without a workload selector. -/
theorem selectorless_apart (collected : Collected mesh resources parser)
    {test : SidecarResource → Bool} (selectorless : ∀ r, test r = true → r.specific = false) :
    (resources.filter test).Pairwise fun r s => r.ns ≠ s.ns := by
  apply List.Pairwise.sublist _ collected.single
  apply List.monotone_filter_right
  intro resource holds
  simp [selectorless resource holds]

omit [Fintype E] [DecidableEq E] in
theorem defaults_apart (collected : Collected mesh resources parser) :
    parser.default_sidecars.Pairwise fun s t => Disjoint s.selected_peers t.selected_peers := by
  have single := selectorless_apart collected fun resource isDefault =>
    (namespaceDefault_iff.mp isDefault).1
  apply forall₂_pairwise (forall₂_members collected.defaults) single
  intro r r' s s' ⟨listed, made⟩ ⟨listed', made'⟩ different
  apply Finset.disjoint_left.mpr
  intro e selected selected'
  have inside := (selectsFirst_default (List.mem_filter.mp listed).2).mp ((made.selected e).mp selected).2.2
  have inside' := (selectsFirst_default (List.mem_filter.mp listed').2).mp
    ((made'.selected e).mp selected').2.2
  obtain ⟨own, place, name⟩ := inside
  obtain ⟨own', place', name'⟩ := inside'
  rw [place] at place'
  obtain rfl := Option.some.inj place'
  exact different (name.symm.trans name')

omit [Fintype E] [DecidableEq E] in
theorem globals_apart (collected : Collected mesh resources parser) :
    parser.global_default_sidecars.Pairwise fun s t => Disjoint s.selected_peers t.selected_peers := by
  have single := selectorless_apart collected fun resource isGlobal =>
    (globalDefault_iff.mp isGlobal).1
  apply forall₂_pairwise (forall₂_members collected.globals) single
  intro r r' s s' ⟨listed, _⟩ ⟨listed', _⟩ different
  have root := (globalDefault_iff.mp (List.mem_filter.mp listed).2).2
  have root' := (globalDefault_iff.mp (List.mem_filter.mp listed').2).2
  exact absurd (root.trans root'.symm) different

/-- The sidecar that is returned for a resource. -/
structure Returned (mesh : Mesh E) (resources : List SidecarResource) (resource : SidecarResource)
    (sidecar : ParsedSidecar P E) : Prop where
  name : sidecar.name = resource.name
  ns : sidecar.ns = resource.ns
  selected : ∀ e, e ∈ sidecar.selected_peers ↔
    e ∈ mesh.peer_set ∧ Peers.kind e = .pod ∧ resource.Owns resources e

omit [Fintype E] [DecidableEq E] in
/-- What is left of a sidecar's peers is what its resource owns. -/
theorem returned_of {test : SidecarResource → Bool} {left_over : E → Prop}
    {sidecars made : List (ParsedSidecar P E)}
    (first : List.Forall₂ (MadeOf mesh) (resources.filter test) sidecars)
    (second : List.Forall₂ (Keeps left_over) sidecars made)
    (owns : ∀ resource ∈ resources, test resource = true → ∀ e, e ∈ mesh.peer_set →
      Peers.kind e = .pod → (SelectsFirst resource e ∧ left_over e ↔ resource.Owns resources e)) :
    List.Forall₂ (Returned mesh resources) (resources.filter test) made := by
  apply forall₂_trans (forall₂_members first) second
  intro resource sidecar made ⟨listed, madeOf⟩ kept
  obtain ⟨listed, holds⟩ := List.mem_filter.mp listed
  refine ⟨kept.name.trans madeOf.name, kept.ns.trans madeOf.ns, fun e => ?_⟩
  rw [kept.selected, madeOf.selected, and_assoc, and_assoc]
  apply and_congr_right
  intro placed
  apply and_congr_right
  intro pod
  exact owns resource listed holds e placed pod

omit [Fintype E] [DecidableEq E] [TopologyPeers E] in
theorem kept_apart {left_over : E → Prop} {sidecars made : List (ParsedSidecar P E)}
    (kept : List.Forall₂ (Keeps left_over) sidecars made)
    (apart : sidecars.Pairwise fun s t => Disjoint s.selected_peers t.selected_peers) :
    made.Pairwise fun s t => Disjoint s.selected_peers t.selected_peers := by
  apply forall₂_pairwise kept apart
  intro s s' t t' kept kept' apart
  apply Finset.disjoint_left.mpr
  intro e selected selected'
  exact Finset.disjoint_left.mp apart ((kept.selected e).mp selected).1 ((kept'.selected e).mp selected').1

omit [Fintype E] [DecidableEq E] in
/-- Nobody with a workload selector claims a pod. -/
theorem unclaimed_iff (collected : Collected mesh resources parser) {e : E}
    (placed : e ∈ mesh.peer_set) (pod : Peers.kind e = .pod) :
    e ∉ parser.peers_referenced_by_labels ↔
      ∀ other ∈ resources, other.specific = true → ¬ other.Selects e := by
  rw [collected.claimed, someSelects_iff collected.specific, and_iff_right ⟨placed, pod⟩]
  constructor
  · intro nobody other listed given selects
    exact nobody ⟨other, listed, given, (selectsFirst_specific given).mpr selects⟩
  · intro nobody ⟨other, listed, given, selects⟩
    exact nobody other listed given ((selectsFirst_specific given).mp selects)

/-- The walk over the three lists. -/
theorem getIstioSidecars_returned (collected : Collected mesh resources parser)
    (visits : order.Visits) (enough : mesh.peer_set.card < fuel) :
    Returns (getIstioSidecars mesh order fuel parser) fun sidecars =>
      List.Forall₂ (Returned mesh resources) (arranged resources) sidecars ∧
        sidecars.Pairwise fun s t => Disjoint s.selected_peers t.selected_peers := by
  unfold getIstioSidecars
  apply returns_bind (returns_mapM fun sidecar listed =>
    createProps_spec visits enough (selectsPods collected.specific sidecar listed))
  intro specific_made specific_kept
  apply returns_bind (refineSidecars_spec visits enough (selectsPods collected.defaults)
    (defaults_apart collected) parser.peers_referenced_by_labels specific_made)
  intro ⟨referenced_peers, res⟩ ⟨mem_referenced, defaults_made, whole, defaults_kept⟩
  apply returns_bind (refineSidecars_spec visits enough (selectsPods collected.globals)
    (globals_apart collected) referenced_peers res)
  intro ⟨all_referenced, all_made⟩ ⟨_, globals_made, all_whole, globals_kept⟩
  apply returns_pure
  change res = _ at whole
  change all_made = _ at all_whole
  subst whole
  rw [List.append_assoc] at all_whole
  subst all_whole
  constructor
  · apply List.rel_append
    · apply returned_of collected.specific specific_kept
      intro resource listed given e placed pod
      rw [Owns, if_pos given, and_true]
      exact selectsFirst_specific given
    · apply List.rel_append
      · apply returned_of collected.defaults defaults_kept
        intro resource listed isDefault e placed pod
        obtain ⟨selectorless, named⟩ := namespaceDefault_iff.mp isDefault
        rw [Owns, if_neg (by simp [selectorless]), if_pos named, selectsFirst_default isDefault,
          unclaimed_iff collected placed pod]
        exact and_comm
      · apply returned_of collected.globals globals_kept
        intro resource listed isGlobal e placed pod
        obtain ⟨selectorless, root⟩ := globalDefault_iff.mp isGlobal
        have known : e ∈ mesh.peer_set ∧ Peers.kind e = .pod := ⟨placed, pod⟩
        rw [Owns, if_neg (by simp [selectorless]), if_neg (not_not.mpr root),
          and_iff_right (selectsFirst_global isGlobal), mem_referenced, not_or,
          unclaimed_iff collected placed pod, someSelects_iff collected.defaults,
          and_iff_right known]
        apply and_congr_right
        intro _
        constructor
        · intro nobody other listed isDefault inside
          exact nobody ⟨other, listed, isDefault, (selectsFirst_default isDefault).mpr inside⟩
        · intro nobody ⟨other, listed, isDefault, selects⟩
          exact nobody other listed isDefault ((selectsFirst_default isDefault).mp selects)
  · apply List.pairwise_append.mpr
    refine ⟨kept_apart specific_kept collected.apart, ?_, ?_⟩
    · apply List.pairwise_append.mpr
      refine ⟨kept_apart defaults_kept (defaults_apart collected),
        kept_apart globals_kept (globals_apart collected), ?_⟩
      intro s listed t listed'
      obtain ⟨first, among, kept⟩ := forall₂_source defaults_kept listed
      obtain ⟨second, _, kept'⟩ := forall₂_source globals_kept listed'
      apply Finset.disjoint_left.mpr
      intro e selected selected'
      apply ((kept'.selected e).mp selected').2
      exact (mem_referenced e).mpr (Or.inr ⟨first, among, ((kept.selected e).mp selected).1⟩)
    · intro s listed t later
      obtain ⟨first, among, kept⟩ := forall₂_source specific_kept listed
      apply Finset.disjoint_left.mpr
      intro e selected selected'
      have claimed := (collected.claimed e).mpr ⟨first, among, ((kept.selected e).mp selected).1⟩
      rcases List.mem_append.mp later with listed' | listed'
      · obtain ⟨_, _, kept'⟩ := forall₂_source defaults_kept listed'
        exact ((kept'.selected e).mp selected').2 claimed
      · obtain ⟨_, _, kept'⟩ := forall₂_source globals_kept listed'
        exact ((kept'.selected e).mp selected').2 ((mem_referenced e).mpr (Or.inl claimed))

/-- Parsing without an error and the walk: each pod belongs to the one sidecar that the priorities
give it. -/
theorem sidecars_by_priority (endpoints : Endpoints mesh.toPeerContainer) (visits : order.Visits)
    (enough : mesh.peer_set.card < fuel) {policies : List Yaml}
    (run : policies.foldlM (parsePolicy mesh) {} = .ok parser) :
    Returns (getIstioSidecars mesh order fuel parser) fun sidecars =>
      List.Forall₂ (Returned mesh (policies.filterMap SidecarResource.ofYaml))
        (arranged (policies.filterMap SidecarResource.ofYaml)) sidecars ∧
      sidecars.Pairwise fun s t => Disjoint s.selected_peers t.selected_peers :=
  getIstioSidecars_returned (parsePolicies_collected endpoints run) visits enough

end Priorities

/-- A mesh of one pod of the namespace `default` and one host endpoint. -/
def podAndHost : Mesh PeerKind where
  peer_set := {.pod, .hostEP}
  is_fqdn _ := true
  matches_host_name _ _ := false
  targets_inside := List.forall_mem_nil _

theorem podAndHost_endpoints : Endpoints podAndHost.toPeerContainer := by
  intro kind listed
  cases kind with
  | pod => exact Or.inl ⟨rfl, rfl⟩
  | hostEP => exact Or.inr (Or.inr ⟨rfl, rfl, rfl⟩)
  | dnsEntry => exact Or.inr (Or.inl rfl)
  | ipBlock => exact absurd listed (by decide)

/-- A sidecar of a namespace with the given specification. -/
def sidecarOf (ns : String) (spec : List (String × Yaml)) : Yaml :=
  .dict [("apiVersion", .str "networking.istio.io/v1beta1"), ("kind", .str "Sidecar"),
    ("metadata", .dict [("name", .str "default-sidecar"), ("namespace", .str ns)]),
    ("spec", .dict spec)]

def allPriorities : List Yaml :=
  [sidecarOf "istio-config" [], sidecarOf "default" [],
    sidecarOf "default" [("workloadSelector", .dict [("labels", .dict [("app", .str "web")])])]]

theorem parses {policies : List Yaml} (fine : (policies.foldlM (parsePolicy podAndHost)
    ({} : IstioSidecarYamlParser (FlowSet PeerKind Unit) PeerKind)).isOk = true) :
    ∃ parser, policies.foldlM (parsePolicy podAndHost)
      ({} : IstioSidecarYamlParser (FlowSet PeerKind Unit) PeerKind) = .ok parser := by
  cases run : policies.foldlM (parsePolicy podAndHost)
      ({} : IstioSidecarYamlParser (FlowSet PeerKind Unit) PeerKind) with
  | ok parser => exact ⟨parser, rfl⟩
  | error e =>
    rw [run] at fine
    exact nomatch fine

theorem allPriorities_ordered :
    ∃ parser, allPriorities.foldlM (parsePolicy podAndHost)
        ({} : IstioSidecarYamlParser (FlowSet PeerKind Unit) PeerKind) = .ok parser ∧
      Returns (getIstioSidecars podAndHost SidecarEgress.kindOrder 3 parser) fun sidecars =>
        List.Forall₂ (Returned podAndHost (allPriorities.filterMap SidecarResource.ofYaml))
          (arranged (allPriorities.filterMap SidecarResource.ofYaml)) sidecars ∧
        sidecars.Pairwise fun s t => Disjoint s.selected_peers t.selected_peers := by
  obtain ⟨parser, run⟩ := @parses allPriorities (by decide +kernel)
  exact ⟨parser, run, sidecars_by_priority podAndHost_endpoints SidecarEgress.kindOrder_visits
    (by decide) run⟩

/-- A global default sidecar leaves out host endpoints, which have no other sidecar either. -/
theorem hostEndpoint_without_sidecar :
    ¬ ∀ (policies : List Yaml) (parser : IstioSidecarYamlParser (FlowSet PeerKind Unit) PeerKind),
      policies.foldlM (parsePolicy podAndHost) {} = .ok parser →
      Returns (getIstioSidecars podAndHost SidecarEgress.kindOrder 3 parser) fun sidecars =>
        List.Forall₂ (fun resource sidecar => ∀ e ∈ podAndHost.peer_set,
          e ∈ sidecar.selected_peers ↔
            resource.Owns (policies.filterMap SidecarResource.ofYaml) e)
          (arranged (policies.filterMap SidecarResource.ofYaml)) sidecars ∧
        sidecars.Pairwise fun s t => Disjoint s.selected_peers t.selected_peers := by
  intro claimed
  obtain ⟨parser, run⟩ := @parses [sidecarOf "istio-config" []] (by decide +kernel)
  have actual := getIstioSidecars_returned (parsePolicies_collected podAndHost_endpoints run)
    SidecarEgress.kindOrder_visits (show podAndHost.peer_set.card < 3 by decide)
  obtain ⟨sidecars, _, ⟨returned, _⟩, wanted, _⟩ := returns_and actual (claimed _ parser run)
  have read : [sidecarOf "istio-config" []].filterMap SidecarResource.ofYaml =
      [⟨"default-sidecar", "istio-config", .null⟩] := by rfl
  rw [read] at returned wanted
  obtain ⟨sidecar, rest, made, _, rfl⟩ := List.forall₂_cons_left_iff.mp returned
  have belongs := ((List.forall₂_cons.mp wanted).1 .hostEP (by decide)).mpr (by
    rw [Owns, if_neg (by decide), if_neg (by decide)]
    constructor
    · intro other listed given
      obtain rfl := List.mem_singleton.mp listed
      exact absurd given (by decide)
    · intro other listed isDefault
      obtain rfl := List.mem_singleton.mp listed
      exact absurd isDefault (by decide))
  exact absurd ((made.selected .hostEP).mp belongs).2.1 (by decide)

end IstioSidecarYamlParser
end Nca.Parsers
