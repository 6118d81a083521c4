import Nca.NetworkConfig.PolicyCollection

/-!
The Istio layer, connection by connection. Only TCP is subject to authorization policies: what a
`Deny` rule matches is denied, and the peers that an `Allow` policy captures accept only what an
`Allow` rule matches. The egress of a peer that Sidecars capture is limited to what they list.
-/

namespace Nca.NetworkConfig
open CoreDS Lib Resources

variable {P E κ : Type} [Fintype E] [DecidableEq E] [Peers E] [ConnectivityProperties P E κ]
  {policies_list : List (Policy P)} {is_ingress : Bool} {peer_container : PeerContainer E}
  {f : PolicyConnectionsFilter} {x : Flow E κ}

/-- A policy of the Istio layer: an authorization policy or a Sidecar. -/
def IsIstio (policy : Policy P) : Prop :=
  NetworkLayerName.policyTypeToLayer policy.base.policy_kind = some .Istio

def IsDeny : Policy P → Prop
  | .istio policy => policy.action = .Deny
  | _ => False

def IsAllow : Policy P → Prop
  | .istio policy => policy.action = .Allow
  | _ => False

/-- Every `Deny` authorization policy stands before every `Allow` one. -/
def DenyFirst (policies_list : List (Policy P)) : Prop :=
  policies_list.Pairwise fun p q => ¬ (IsAllow p ∧ IsDeny q)

/-- A rule of the authorization policy matches the connection. -/
def Matches (policy : Policy P) (x : Flow E κ) : Prop :=
  match policy with
  | .istio policy => ∃ rule ∈ policy.ingress_rules, x ∈ rule.props
  | _ => False

/-- The Sidecar affects egress and selects the peer. -/
def SidecarCaptures (policy : Policy P) (e : E) : Prop :=
  match policy with
  | .sidecar policy => policy.affects_egress = true ∧ e ∈ policy.selected_peers
  | _ => False

/-- No Sidecar captures the source, or one that does lists the connection. -/
def SidecarsAllow (policies_list : List (Policy P)) (x : Flow E κ) : Prop :=
  (∀ policy ∈ policies_list, ¬ SidecarCaptures policy x.src) ∨
    ∃ policy ∈ policies_list, SidecarCaptures policy x.src ∧ x ∈ (policy.syncProps false).allow

omit [Fintype E] [DecidableEq E] in
theorem istio_cases {policy : Policy P} (layer : IsIstio policy) :
    (∃ p, policy = .istio p) ∨ ∃ p, policy = .sidecar p := by
  cases policy with
  | istio p => exact Or.inl ⟨p, rfl⟩
  | sidecar p => exact Or.inr ⟨p, rfl⟩
  | k8s p => simp [IsIstio, Policy.base, p.kind, NetworkLayerName.policyTypeToLayer] at layer
  | calico p =>
    have kind := p.kind
    simp only [List.mem_cons, List.not_mem_nil, or_false] at kind
    rcases kind with kind | kind | kind <;>
      simp [IsIstio, Policy.base, kind, NetworkLayerName.policyTypeToLayer] at layer
  | gateway p =>
    have kind := p.kind
    simp only [List.mem_cons, List.not_mem_nil, or_false] at kind
    rcases kind with kind | kind <;>
      simp [IsIstio, Policy.base, kind, NetworkLayerName.policyTypeToLayer] at layer

section Ingress

omit [Fintype E] [DecidableEq E] in
theorem matches_inside {policy : Policy P} (matched : Matches policy x) :
    x.dst ∈ policy.base.selected_peers ∧ Peers.kind x.dst ≠ .dnsEntry := by
  cases policy with
  | istio p =>
    obtain ⟨rule, member, inside⟩ := matched
    have selected := p.ingress_inside rule member x inside
    exact ⟨selected, p.no_dns _ selected⟩
  | k8s p | calico p | sidecar p | gateway p => exact matched.elim

theorem istio_verdictOn (p : IstioNetworkPolicy P) [Decidable (Matches (.istio p) x)] :
    (Policy.istio p).verdictOn true x = if Matches (.istio p) x
      then some (match p.action with | .Allow => .allow | .Deny => .deny) else none := by
  have matched : Matches (.istio p) x ↔
      x ∈ unionProps IstioPolicyRule.props p.ingress_rules := mem_unionProps.symm
  unfold Policy.verdictOn
  by_cases idle : (Policy.istio p).captured true = ∅
  · have none : ¬ Matches (.istio p) x := by
      intro inside
      have selected : x.dst ∈ (Policy.istio p).captured true := (matches_inside inside).1
      simp [idle] at selected
    simp [idle, none]
  · have decisions : (Policy.istio p).syncProps true = match p.action with
        | .Allow => ⟨unionProps IstioPolicyRule.props p.ingress_rules, ∅, ∅⟩
        | .Deny => ⟨∅, unionProps IstioPolicyRule.props p.ingress_rules, ∅⟩ := rfl
    rw [if_pos idle, decisions]
    cases p.action <;> simp [Decisions.verdict, matched]

theorem sidecar_verdictOn (p : IstioSidecar P) : (Policy.sidecar p).verdictOn true x = none :=
  if_neg (not_not.mpr rfl)

/-- Where `Deny` policies come first, they are followed before all `Allow` policies. -/
theorem denyFirst_verdict (istio : ∀ policy ∈ policies_list, IsIstio policy)
    (ordered : DenyFirst policies_list) :
    (policies_list.findSome? (Policy.verdictOn · true x) = some .deny ↔
      ∃ policy ∈ policies_list, IsDeny policy ∧ Matches policy x) ∧
    (policies_list.findSome? (Policy.verdictOn · true x) = some .allow ↔
      (¬ ∃ policy ∈ policies_list, IsDeny policy ∧ Matches policy x) ∧
        ∃ policy ∈ policies_list, IsAllow policy ∧ Matches policy x) := by
  classical
  induction policies_list with
  | nil => simp
  | cons policy rest ih =>
    obtain ⟨first, others⟩ := List.forall_mem_cons.mp istio
    obtain ⟨before, ordered⟩ := List.pairwise_cons.mp ordered
    obtain ⟨denied, allowed⟩ := ih others ordered
    rw [List.findSome?_cons, List.exists_mem_cons_iff, List.exists_mem_cons_iff]
    obtain ⟨p, rfl⟩ | ⟨p, rfl⟩ := istio_cases first
    · have deny : IsDeny (.istio p) ↔ p.action = .Deny := Iff.rfl
      have allow : IsAllow (.istio p) ↔ p.action = .Allow := Iff.rfl
      rw [istio_verdictOn p, deny, allow]
      by_cases matched : Matches (.istio p) x
      · cases action : p.action with
        | Deny => simp [matched]
        | Allow =>
          have none : ¬ ∃ policy ∈ rest, IsDeny policy ∧ Matches policy x := by
            rintro ⟨policy, member, denies, _⟩
            exact before policy member ⟨action, denies⟩
          simp [matched, none]
      · simp [matched, denied, allowed]
    · rw [sidecar_verdictOn p]
      simp [IsDeny, IsAllow, denied, allowed]

theorem mem_istio_ingress (asked : f.calc_all_allowed = true) :
    x ∈ (IstioNetworkLayer.allowedXgressConns policies_list true peer_container
      f).all_allowed_conns ↔
    let collected := NetworkLayer.collectPoliciesConnsOptimized policies_list true
      IstioNetworkLayer.capturedCondFunc
    x ∈ collected.allowed_conns ∨
      (x.src ∈ peer_container.getAllPeersGroup true ∧
        x.dst ∈ peer_container.getAllPeersGroup true ∧ x.protocol ≠ tcp) ∨
      ((∃ e ∈ peer_container.getAllPeersGroup, e ∉ collected.captured) ∧
        x.src ∈ peer_container.getAllPeersGroup true ∧ x.dst ∉ collected.captured ∧
        x ∉ collected.denied_conns ∧ (x.dst ∈ peer_container.getAllPeersGroup ∨
          (x.dst ∈ peer_container.getAllDnsEntries ∧ x.protocol = tcp))) := by
  unfold IstioNetworkLayer.allowedXgressConns
  generalize built : NetworkLayer.collectPoliciesConnsOptimized policies_list true
    IstioNetworkLayer.capturedCondFunc = collected
  have fresh : collected.all_allowed_conns = ∅ := built ▸ NetworkLayer.collected_all_allowed
  have uncaptured : (∃ e ∈ peer_container.getAllPeersGroup, e ∉ collected.captured) ↔
      peer_container.getAllPeersGroup \ collected.captured ≠ ∅ := by
    rw [← Finset.nonempty_iff_ne_empty]
    exact exists_congr fun e => Finset.mem_sdiff.symm
  simp only [asked, Bool.not_true, Bool.false_eq_true, if_false, if_true,
    apply_ite PolicyConnections.all_allowed_conns]
  rw [mem_ite_union, mem_guarded ?guard, uncaptured, fresh]
  case guard =>
    intro member
    have inside := (ExactSet.mem_sdiff.mp member).1
    simp only [mem_makeConnProps, ConnectivityCube.Admits, Option.some.injEq, forall_eq'] at inside
    exact Finset.ne_empty_of_mem inside.2.1
  simp only [ExactSet.not_mem_empty, false_or, ExactSet.mem_union, ExactSet.mem_sdiff,
    mem_makeConnProps, ConnectivityCube.Admits, Option.some.injEq, forall_eq', reduceCtorEq,
    false_implies, implies_true, and_true, Finset.mem_sdiff, mem_non_tcp,
    getProtocolSetWithSingleProtocol, Finset.mem_singleton]
  tauto

theorem mem_istio_captured (istio : ∀ policy ∈ policies_list, IsIstio policy) {e : E} :
    e ∈ (NetworkLayer.collectPoliciesConnsOptimized policies_list true
      IstioNetworkLayer.capturedCondFunc).captured ↔
    ∃ policy ∈ policies_list, IsAllow policy ∧ e ∈ policy.base.selected_peers := by
  rw [NetworkLayer.mem_collected_captured]
  refine exists_congr fun policy => and_congr_right fun member => ?_
  obtain ⟨p, rfl⟩ | ⟨p, rfl⟩ := istio_cases (istio policy member)
  · have captured : (Policy.istio p).captured true = p.selected_peers := rfl
    simp [IstioNetworkLayer.capturedCondFunc, IsAllow, Policy.base, captured]
  · have captured : (Policy.sidecar p).captured true = ∅ := rfl
    simp [IsAllow, captured]

/-- A policy on the pod, with one rule for the given sources. -/
def podPolicy (action : ActionType) (sources : PeerSet PeerKind) : Policy (FlowSet PeerKind Unit) :=
  .istio
    { name := match action with | .Deny => "deny" | .Allow => "allow"
      policy_namespace := some "default"
      selected_peers := {.pod}
      affects_ingress := true
      affects_egress := false
      policy_kind := .IstioAuthorizationPolicy
      action := action
      ingress_rules := [⟨makeConnProps { src_peers := some sources, dst_peers := some {.pod} }⟩]
      kind := rfl
      ingress_inside := by simp [Inside, ConnectivityCube.Admits, capturedEnd]
      no_dns := by decide }

end Ingress

section Egress

/-- Authorization policies say nothing about egress, and Sidecars only allow. -/
theorem egress_verdictOn {policy : Policy P} (istio : IsIstio policy)
    [Decidable (SidecarCaptures policy x.src)] :
    policy.verdictOn false x =
      if SidecarCaptures policy x.src ∧ x ∈ (policy.syncProps false).allow then some .allow
      else none := by
  obtain ⟨p, rfl⟩ | ⟨p, rfl⟩ := istio_cases istio
  · have silent : (Policy.istio p).verdictOn false x = none := if_neg (not_not.mpr rfl)
    simp [silent, SidecarCaptures]
  · have captures : SidecarCaptures (.sidecar p) x.src ↔
        p.affects_egress = true ∧ x.src ∈ p.selected_peers := Iff.rfl
    have captured : (Policy.sidecar p).captured false =
        if p.affects_egress = true then p.selected_peers else ∅ := rfl
    have allow : (Policy.sidecar p).syncProps false =
        ⟨unionProps IstioSidecarRule.props p.egress_rules, ∅, ∅⟩ := rfl
    have inside : x ∈ unionProps IstioSidecarRule.props p.egress_rules →
        x.src ∈ p.selected_peers := by
      intro listed
      obtain ⟨rule, member, listed⟩ := mem_unionProps.mp listed
      exact p.egress_inside rule member x listed
    unfold Policy.verdictOn
    rw [captured, allow]
    by_cases affects : p.affects_egress = true
    · by_cases listed : x ∈ unionProps IstioSidecarRule.props p.egress_rules
      · have selected : p.selected_peers ≠ ∅ := Finset.ne_empty_of_mem (inside listed)
        simp [affects, selected, captures, inside listed, listed, Decisions.verdict]
      · simp [listed, Decisions.verdict]
    · simp [affects, captures]

theorem egress_verdict (istio : ∀ policy ∈ policies_list, IsIstio policy) :
    policies_list.findSome? (Policy.verdictOn · false x) ≠ some .deny ∧
      (policies_list.findSome? (Policy.verdictOn · false x) = some .allow ↔
        ∃ policy ∈ policies_list,
          SidecarCaptures policy x.src ∧ x ∈ (policy.syncProps false).allow) := by
  classical
  induction policies_list with
  | nil => simp
  | cons policy rest ih =>
    obtain ⟨first, others⟩ := List.forall_mem_cons.mp istio
    obtain ⟨denied, allowed⟩ := ih others
    rw [List.findSome?_cons, List.exists_mem_cons_iff, egress_verdictOn first]
    by_cases listed : SidecarCaptures policy x.src ∧ x ∈ (policy.syncProps false).allow
    · simp [listed]
    · rw [if_neg listed]
      exact ⟨denied, allowed.trans (or_iff_right listed).symm⟩

theorem mem_sidecar_captured (istio : ∀ policy ∈ policies_list, IsIstio policy) {e : E} :
    e ∈ (NetworkLayer.collectPoliciesConnsOptimized policies_list false
      IstioNetworkLayer.capturedCondFunc).captured ↔
    ∃ policy ∈ policies_list, SidecarCaptures policy e := by
  rw [NetworkLayer.mem_collected_captured]
  refine exists_congr fun policy => and_congr_right fun member => ?_
  obtain ⟨p, rfl⟩ | ⟨p, rfl⟩ := istio_cases (istio policy member)
  · have captured : (Policy.istio p).captured false = ∅ := rfl
    simp [SidecarCaptures, captured]
  · have captured : (Policy.sidecar p).captured false =
        if p.affects_egress = true then p.selected_peers else ∅ := rfl
    by_cases affects : p.affects_egress = true <;>
      simp [IstioNetworkLayer.capturedCondFunc, SidecarCaptures, captured, affects]

theorem mem_istio_egress (asked : f.calc_all_allowed = true) :
    x ∈ (IstioNetworkLayer.allowedXgressConns policies_list false peer_container
      f).all_allowed_conns ↔
    let collected := NetworkLayer.collectPoliciesConnsOptimized policies_list false
      IstioNetworkLayer.capturedCondFunc
    x ∈ collected.allowed_conns ∨
      (x.src ∈ peer_container.getAllPeersGroup true ∧
        x.dst ∈ peer_container.getAllPeersGroup true ∧ x.protocol ≠ tcp) ∨
      (x.src ∈ peer_container.getAllPeersGroup ∧ x.src ∉ collected.captured ∧
        x ∉ collected.denied_conns ∧ (x.dst ∈ peer_container.getAllPeersGroup true ∨
          (x.dst ∈ peer_container.getAllDnsEntries ∧ x.protocol = tcp))) := by
  unfold IstioNetworkLayer.allowedXgressConns
  generalize built : NetworkLayer.collectPoliciesConnsOptimized policies_list false
    IstioNetworkLayer.capturedCondFunc = collected
  have fresh : collected.all_allowed_conns = ∅ := built ▸ NetworkLayer.collected_all_allowed
  simp only [asked, Bool.not_true, Bool.false_eq_true, if_false,
    apply_ite PolicyConnections.all_allowed_conns]
  rw [mem_guarded ?guard, fresh]
  case guard =>
    intro member
    have inside := (ExactSet.mem_sdiff.mp member).1
    simp only [ExactSet.mem_union, mem_makeConnProps, ConnectivityCube.Admits, Option.some.injEq,
      forall_eq'] at inside
    rcases inside with inside | inside
    · exact Finset.ne_empty_of_mem inside.1
    · exact Finset.ne_empty_of_mem inside.1
  simp only [ExactSet.not_mem_empty, false_or, ExactSet.mem_union, ExactSet.mem_sdiff,
    mem_makeConnProps, ConnectivityCube.Admits, Option.some.injEq, forall_eq', reduceCtorEq,
    false_implies, implies_true, and_true, Finset.mem_sdiff, mem_non_tcp,
    getProtocolSetWithSingleProtocol, Finset.mem_singleton]
  tauto

end Egress

section DNSEntries

theorem ingress_matched {policy : Policy P} (istio : IsIstio policy) {v : Verdict}
    (decided : policy.verdictOn true x = some v) : Matches policy x := by
  classical
  obtain ⟨p, rfl⟩ | ⟨p, rfl⟩ := istio_cases istio
  · rw [istio_verdictOn p] at decided
    by_contra unmatched
    simp [unmatched] at decided
  · simp [sidecar_verdictOn p] at decided

/-- Ingress to a DNS entry is free, but only while some peer is left uncaptured. -/
theorem mem_dns_ingress (istio : ∀ policy ∈ policies_list, IsIstio policy)
    (asked : f.calc_all_allowed = true) (src : x.src ∈ peer_container.getAllPeersGroup)
    (dst : x.dst ∈ peer_container.getAllDnsEntries) (overTcp : x.protocol = tcp) :
    x ∈ (IstioNetworkLayer.allowedXgressConns policies_list true peer_container
      f).all_allowed_conns ↔
    ∃ e ∈ peer_container.getAllPeersGroup, ¬ ∃ policy ∈ policies_list,
      IsAllow policy ∧ e ∈ policy.base.selected_peers := by
  have dns := (PeerContainer.mem_dns.mp dst).2
  have undecided : ∀ v, policies_list.findSome? (Policy.verdictOn · true x) ≠ some v := by
    intro v decided
    obtain ⟨policy, member, decided⟩ := List.exists_of_findSome?_eq_some decided
    exact (matches_inside (ingress_matched (istio policy member) decided)).2 dns
  obtain ⟨disjoint, verdict⟩ : (NetworkLayer.collectPoliciesConnsOptimized policies_list true
    IstioNetworkLayer.capturedCondFunc).decisions.Disjoint ∧ _ := NetworkLayer.collected_verdict
  have unallowed : x ∉ (NetworkLayer.collectPoliciesConnsOptimized policies_list true
      IstioNetworkLayer.capturedCondFunc).allowed_conns :=
    fun allowed => undecided _ ((verdict x).symm.trans (Decisions.verdict_allow.mpr allowed))
  have undenied : x ∉ (NetworkLayer.collectPoliciesConnsOptimized policies_list true
      IstioNetworkLayer.capturedCondFunc).denied_conns := fun denied =>
    undecided _ ((verdict x).symm.trans ((Decisions.verdict_deny disjoint).mpr denied))
  have uncaptured : ¬ ∃ policy ∈ policies_list,
      IsAllow policy ∧ x.dst ∈ policy.base.selected_peers := by
    intro ⟨policy, member, allow, selected⟩
    obtain ⟨p, rfl⟩ | ⟨p, rfl⟩ := istio_cases (istio policy member)
    · exact p.no_dns _ selected dns
    · exact allow
  have src' : x.src ∈ peer_container.getAllPeersGroup true :=
    PeerContainer.mem_group_ips.mpr (Or.inl src)
  rw [mem_istio_ingress asked]
  simp only [unallowed, undenied, uncaptured, mem_istio_captured istio, src', dst, overTcp, ne_eq,
    not_true, not_false_eq_true, and_false, false_or, and_self, or_true, and_true]

theorem mem_dns_egress (istio : ∀ policy ∈ policies_list, IsIstio policy)
    (asked : f.calc_all_allowed = true) (src : x.src ∈ peer_container.getAllPeersGroup)
    (dst : x.dst ∈ peer_container.getAllDnsEntries) (overTcp : x.protocol = tcp) :
    x ∈ (IstioNetworkLayer.allowedXgressConns policies_list false peer_container
      f).all_allowed_conns ↔ SidecarsAllow policies_list x := by
  obtain ⟨disjoint, verdict⟩ : (NetworkLayer.collectPoliciesConnsOptimized policies_list false
    IstioNetworkLayer.capturedCondFunc).decisions.Disjoint ∧ _ := NetworkLayer.collected_verdict
  have allowed : x ∈ (NetworkLayer.collectPoliciesConnsOptimized policies_list false
      IstioNetworkLayer.capturedCondFunc).allowed_conns ↔ ∃ policy ∈ policies_list,
        SidecarCaptures policy x.src ∧ x ∈ (policy.syncProps false).allow := by
    rw [← (egress_verdict istio).2, ← verdict x, Decisions.verdict_allow]
    rfl
  have undenied : x ∉ (NetworkLayer.collectPoliciesConnsOptimized policies_list false
      IstioNetworkLayer.capturedCondFunc).denied_conns := fun denied =>
    (egress_verdict istio).1 ((verdict x).symm.trans ((Decisions.verdict_deny disjoint).mpr denied))
  rw [mem_istio_egress asked]
  simp only [allowed, undenied, mem_sidecar_captured istio, src, dst, overTcp, ne_eq, not_true,
    not_false_eq_true, and_false, false_or, true_and, and_self, or_true, and_true, SidecarsAllow,
    not_exists, not_and]
  exact or_comm

/-- TCP to DNS entries needs the leave of the Sidecars, and some peer that is left uncaptured. -/
theorem mem_dns_tcp (istio : ∀ policy ∈ policies_list, IsIstio policy)
    (asked : f.calc_all_allowed = true) (src : x.src ∈ peer_container.getAllPeersGroup)
    (dst : x.dst ∈ peer_container.getAllDnsEntries) (overTcp : x.protocol = tcp) :
    x ∈ (NetworkLayer.allowedConnections .Istio policies_list peer_container
      f).all_allowed_conns ↔
    (∃ e ∈ peer_container.getAllPeersGroup, ¬ ∃ policy ∈ policies_list,
      IsAllow policy ∧ e ∈ policy.base.selected_peers) ∧ SidecarsAllow policies_list x := by
  have dns := (PeerContainer.mem_dns.mp dst).2
  have outside : x.dst ∉ peer_container.getAllPeersGroup :=
    fun inside => (PeerContainer.mem_group.mp inside).2 dns
  rw [← mem_dns_ingress istio asked src dst overTcp, ← mem_dns_egress istio asked src dst overTcp,
    NetworkLayer.mem_layer_all asked]
  simp only [dns, outside, reduceCtorEq, and_false, or_false]
  rfl

/-- Only the Sidecars decide about TCP to a DNS entry exactly if `Allow` policies leave a peer of the
container uncaptured, or the Sidecars do not let the connection out. -/
theorem dns_tcp_sidecars_iff (istio : ∀ policy ∈ policies_list, IsIstio policy)
    (asked : f.calc_all_allowed = true) (src : x.src ∈ peer_container.getAllPeersGroup)
    (dst : x.dst ∈ peer_container.getAllDnsEntries) (overTcp : x.protocol = tcp) :
    (x ∈ (NetworkLayer.allowedConnections .Istio policies_list peer_container
      f).all_allowed_conns ↔ SidecarsAllow policies_list x) ↔
    (∃ e ∈ peer_container.getAllPeersGroup, ¬ ∃ policy ∈ policies_list,
      IsAllow policy ∧ e ∈ policy.base.selected_peers) ∨ ¬ SidecarsAllow policies_list x := by
  rw [mem_dns_tcp istio asked src dst overTcp, and_iff_right_iff_imp]
  exact imp_iff_or_not

theorem dns_tcp_sidecars_iff_uncaptured :
    (⟨.pod, .dnsEntry, tcp, ()⟩ : Flow PeerKind Unit) ∈
      (NetworkLayer.allowedConnections .Istio [podPolicy .Deny {.ipBlock}] ⟨{.pod, .dnsEntry}⟩
        .everything).all_allowed_conns := by
  have istio : ∀ policy ∈ [podPolicy .Deny {.ipBlock}], IsIstio policy := by
    simp [podPolicy, IsIstio, Policy.base, NetworkLayerName.policyTypeToLayer]
  refine ((dns_tcp_sidecars_iff istio rfl (by decide) (by decide) rfl).mpr ?_).mpr ?_
  · refine Or.inl ⟨.pod, by decide, ?_⟩
    simp [podPolicy, IsAllow]
  · refine Or.inl ?_
    simp [podPolicy, SidecarCaptures]

/-- Once an `Allow` policy captures the only pod, the pod loses its access to the DNS entry. -/
theorem dns_tcp_lost :
    ¬ ((⟨.pod, .dnsEntry, tcp, ()⟩ : Flow PeerKind Unit) ∈
        (NetworkLayer.allowedConnections .Istio [podPolicy .Allow {.ipBlock}] ⟨{.pod, .dnsEntry}⟩
          .everything).all_allowed_conns ↔
      SidecarsAllow [podPolicy .Allow {.ipBlock}]
        (⟨.pod, .dnsEntry, tcp, ()⟩ : Flow PeerKind Unit)) := by
  have istio : ∀ policy ∈ [podPolicy .Allow {.ipBlock}], IsIstio policy := by
    simp [podPolicy, IsIstio, Policy.base, NetworkLayerName.policyTypeToLayer]
  rw [mem_dns_tcp istio rfl (by decide) (by decide) rfl]
  have onlyPod : (⟨{.pod, .dnsEntry}⟩ : PeerContainer PeerKind).getAllPeersGroup = {.pod} := by
    decide
  simp [onlyPod, podPolicy, IsAllow, Policy.base, SidecarsAllow, SidecarCaptures]

end DNSEntries
end Nca.NetworkConfig
