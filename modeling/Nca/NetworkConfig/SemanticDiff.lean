import Nca.NetworkConfig.NetworkConfigQuery
import Nca.NetworkConfig.UnselectedPeers

/-!
The semantic diff against the difference that it reports. The categories share out the changed
connections, except that a pod and a DNS entry which no policy selects are overlooked when only one
of the configurations has an Istio layer.
-/

namespace Nca.NetworkConfig
open CoreDS Lib Resources

variable {P E κ : Type} [Fintype E] [DecidableEq E] [Peers E] [ConnectivityProperties P E κ]
  {x : Flow E κ}

section Filter

/-- A connection of a kind that is never allowed: between IP addresses, from an IP address to a DNS
entry, or from a DNS entry. -/
def NeverAllowed (self : NetworkConfig P) (x : Flow E κ) : Prop :=
  (Peers.kind x.src = .ipBlock ∧
    (Peers.kind x.dst = .ipBlock ∨ x.dst ∈ self.peer_container.getAllDnsEntries)) ∨
  x.src ∈ self.peer_container.getAllDnsEntries

theorem mem_filterConns {self : NetworkConfig P} {conns : P} :
    x ∈ self.filterConnsByPeerTypes conns ↔ x ∈ conns ∧ ¬ NeverAllowed self x := by
  simp only [NetworkConfig.filterConnsByPeerTypes, NeverAllowed, ExactSet.mem_sdiff,
    mem_makeConnProps, ConnectivityCube.Admits, Option.some.injEq, forall_eq', reduceCtorEq,
    false_implies, implies_true, and_true, Finset.mem_union, mem_allIps, not_or, and_assoc]

/-- An address that a query excludes. -/
def IsIpv6 (e : E) : Prop := Peers.kind e = .ipBlock ∧ Peers.ipv6 e = true

variable {self : TwoNetworkConfigsQuery P}

theorem mem_filtered {conns1 conns2 : P} :
    (x ∈ (self.filterConnsByInputOrInternalConstraints conns1 conns2).1 ↔
      (x ∈ conns1 ∧ ¬ NeverAllowed self.config1 x) ∧
        (self.excludeIpv6 = true → ¬ IsIpv6 x.src ∧ ¬ IsIpv6 x.dst)) ∧
    (x ∈ (self.filterConnsByInputOrInternalConstraints conns1 conns2).2 ↔
      (x ∈ conns2 ∧ ¬ NeverAllowed self.config2 x) ∧
        (self.excludeIpv6 = true → ¬ IsIpv6 x.src ∧ ¬ IsIpv6 x.dst)) := by
  have masked : ∀ conns : P, conns = conns1 ∨ conns = conns2 → x ∈ conns →
      (x ∈ (makeConnProps
          { src_peers := some (filterIpBlocksByMask (getAllPeers conns1 ∪ getAllPeers conns2)),
            dst_peers := some (filterIpBlocksByMask (getAllPeers conns1 ∪ getAllPeers conns2)) } : P) ↔
        ¬ IsIpv6 x.src ∧ ¬ IsIpv6 x.dst) := by
    intro conns either member
    have ends : x.src ∈ getAllPeers conns1 ∪ getAllPeers conns2 ∧
        x.dst ∈ getAllPeers conns1 ∪ getAllPeers conns2 := by
      rw [Finset.mem_union, Finset.mem_union]
      rcases either with rfl | rfl
      · exact ⟨Or.inl (src_mem_allPeers member), Or.inl (dst_mem_allPeers member)⟩
      · exact ⟨Or.inr (src_mem_allPeers member), Or.inr (dst_mem_allPeers member)⟩
    simp only [mem_makeConnProps, ConnectivityCube.Admits, Option.some.injEq, forall_eq',
      mem_filterIpBlocks, ends, true_and, reduceCtorEq, false_implies, implies_true, and_true, IsIpv6]
  have all : x ∈ (makeConnProps {} : P) := by
    simp [ConnectivityCube.Admits]
  unfold TwoNetworkConfigsQuery.filterConnsByInputOrInternalConstraints
  dsimp only
  rw [ExactSet.mem_inter, ExactSet.mem_inter, mem_filterConns, mem_filterConns]
  cases exclude : self.excludeIpv6 with
  | false => simp [all]
  | true =>
    rw [if_pos rfl]
    exact ⟨and_congr_right fun inside => (masked conns1 (Or.inl rfl) inside.1).trans
        (by simp), and_congr_right fun inside => (masked conns2 (Or.inr rfl) inside.1).trans
        (by simp)⟩

/-- A filtered connection: every layer allows it, it is not of a kind that is never allowed, and it
is not excluded. -/
def Keeps (self : TwoNetworkConfigsQuery P) (config : NetworkConfig P) (x : Flow E κ) : Prop :=
  (AllowedByAll config x ∧ ¬ NeverAllowed config x) ∧
    (self.excludeIpv6 = true → ¬ IsIpv6 x.src ∧ ¬ IsIpv6 x.dst)

theorem mem_filteredConns :
    (x ∈ (self.filteredConns none).1 ↔ Keeps self self.config1 x) ∧
      (x ∈ (self.filteredConns none).2 ↔ Keeps self self.config2 x) := by
  have plain : ∀ config : NetworkConfig P, x ∈ (config.allowedConnections none
      .onlyAllAllowedConnections).all_allowed_conns ↔ AllowedByAll config x :=
    fun config => (mem_all_allowed rfl).trans (and_iff_left nofun)
  unfold TwoNetworkConfigsQuery.filteredConns Keeps
  rw [← plain, ← plain]
  exact mem_filtered

end Filter

section Categories

open Classical in
/-- One if the statement holds, else zero. -/
noncomputable def tally (p : Prop) : Nat := if p then 1 else 0

theorem tally_eq (p : Prop) [Decidable p] : tally p = if p then 1 else 0 := by
  unfold tally
  congr

/-- A connection of one side is counted once if the other side lacks it. Its ends belong to that side
only, to both sides or to neither. -/
theorem counted_once {rs rd ps pd bs bd cs cd old new : Prop}
    (src : old → (rs ∧ ¬ ps ∧ ¬ bs) ∨ (¬ rs ∧ ps ∧ ¬ bs) ∨ (¬ rs ∧ ¬ ps ∧ bs))
    (dst : old → (rd ∧ ¬ pd ∧ ¬ bd) ∨ (¬ rd ∧ pd ∧ ¬ bd) ∨ (¬ rd ∧ ¬ pd ∧ bd))
    (capturedSrc : cs → ps) (capturedDst : cd → pd)
    (notBoth : old → ¬ (bs ∧ bd)) (own : new → ¬ rs ∧ ¬ rd)
    (covered : old → ¬ new → ¬ rs → ¬ rd → cs ∨ cd) :
    tally ((rs ∧ rd) ∧ old) + tally ((rs ∧ bd ∨ bs ∧ rd) ∧ old) +
      tally ((rs ∧ pd ∨ ps ∧ rd) ∧ old) + tally ((old ∧ ¬ new) ∧ (cs ∧ pd ∨ ps ∧ cd)) +
      tally ((old ∧ ¬ new) ∧ (cs ∧ bd ∨ bs ∧ cd)) = tally (old ∧ ¬ new) := by
  unfold tally
  by_cases allowed : old
  · have src := src allowed
    have dst := dst allowed
    have notBoth := notBoth allowed
    have covered := covered allowed
    by_cases still : new
    · have own := own still
      simp [allowed, still, own]
    · rcases src with src | src | src <;> rcases dst with dst | dst | dst <;> simp_all
  · simp [allowed]

variable (self : TwoNetworkConfigsQuery P)

/-- The connection is reported as removed in the category. -/
def removes (x : Flow E κ) (category : SemanticDiffQuery.Category P) : Bool :=
  category.removed_props.any fun props => decide (x ∈ props)

/-- The connection is reported as added in the category. -/
def adds (x : Flow E κ) (category : SemanticDiffQuery.Category P) : Bool :=
  category.added_props.any fun props => decide (x ∈ props)

/-- The connection is allowed in the old configuration only. -/
def Lost (x : Flow E κ) : Prop := Keeps self self.config1 x ∧ ¬ Keeps self self.config2 x

/-- The connection is allowed in the new configuration only. -/
def Gained (x : Flow E κ) : Prop := Keeps self self.config2 x ∧ ¬ Keeps self self.config1 x

/-- A peer of the old configuration that the new one lacks. -/
def Removed (e : E) : Prop :=
  e ∈ self.config1.peer_container.peer_set ∧ e ∉ self.config2.peer_container.peer_set

def Persistent (e : E) : Prop :=
  e ∈ self.config1.peer_container.peer_set ∧ e ∈ self.config2.peer_container.peer_set

/-- A peer of the new configuration that the old one lacks. -/
def Added (e : E) : Prop :=
  e ∈ self.config2.peer_container.peer_set ∧ e ∉ self.config1.peer_container.peer_set

/-- An address that the query does not exclude. -/
def Address (e : E) : Prop :=
  Peers.kind e = .ipBlock ∧ ¬ (self.excludeIpv6 = true ∧ Peers.ipv6 e = true)

/-- A persistent peer that a policy of one of the configurations selects. -/
def Captured (e : E) : Prop :=
  (e ∈ self.config1.getCapturedPods ∨ e ∈ self.config2.getCapturedPods) ∧ Persistent self e

/-- One end has one property and the other end has the other. -/
def Between (p q : E → Prop) (x : Flow E κ) : Prop := (p x.src ∧ q x.dst) ∨ (q x.src ∧ p x.dst)

omit [Fintype E] [DecidableEq E] [Peers E] [ConnectivityProperties P E κ] in
theorem between_comm {p q : E → Prop} : Between p q x ↔ Between q p x := Or.comm

omit [Fintype E] [DecidableEq E] [Peers E] in
theorem mem_connsBetween {peers others : PeerSet E} :
    x ∈ (SemanticDiffQuery.connsBetween peers others : P) ↔
      Between (· ∈ peers) (· ∈ others) x := by
  simp [SemanticDiffQuery.connsBetween, ConnectivityCube.Admits, Between]

omit [DecidableEq E] in
theorem mem_addresses {e : E} : e ∈ (if self.excludeIpv6 = true then
    filterIpBlocksByMask getAllIpsBlockPeerSet else getAllIpsBlockPeerSet) ↔ Address self e := by
  unfold Address
  cases self.excludeIpv6 with
  | false => simp [mem_allIps]
  | true =>
    rw [if_pos rfl, mem_filterIpBlocks, mem_allIps]
    tauto

/-- In how many categories a connection between distinct peers is reported. -/
theorem count_reported (distinct : x.src ≠ x.dst) :
    (SemanticDiffQuery.computeDiff self).countP (removes x) =
      tally ((Removed self x.src ∧ Removed self x.dst) ∧ Keeps self self.config1 x) +
      tally (Between (Removed self) (Address self) x ∧ Keeps self self.config1 x) +
      tally (Between (Removed self) (Persistent self) x ∧ Keeps self self.config1 x) +
      tally (Lost self x ∧ Between (Captured self) (Persistent self) x) +
      tally (Lost self x ∧ Between (Captured self) (Address self) x) ∧
    (SemanticDiffQuery.computeDiff self).countP (adds x) =
      tally ((Added self x.src ∧ Added self x.dst) ∧ Keeps self self.config2 x) +
      tally (Between (Added self) (Address self) x ∧ Keeps self self.config2 x) +
      tally (Between (Added self) (Persistent self) x ∧ Keeps self self.config2 x) +
      tally (Gained self x ∧ Between (Captured self) (Persistent self) x) +
      tally (Gained self x ∧ Between (Captured self) (Address self) x) := by
  classical
  simp only [SemanticDiffQuery.computeDiff, List.countP_cons, List.countP_nil, removes, adds,
    Option.any_some, Option.any_none, decide_eq_true_eq, ExactSet.mem_inter, ExactSet.mem_sdiff,
    mem_withoutAutoConns, mem_connsBetween, mem_filteredConns, mem_addresses]
  rw [between_comm (p := Added self) (q := Persistent self)]
  simp [tally, Between, Captured, Removed, Added, Persistent, Lost, Gained, distinct,
    PeerContainer.mem_group_dns, ConnectivityCube.Admits]
  constructor <;> ac_rfl

end Categories

section Cover

/-- What parsing guarantees: the peers of a configuration are not IP addresses, and its policies
select them alone and keep to what they select. -/
structure Parsed (peer_container : PeerContainer E) (appended : List (Policy P)) : Prop where
  no_ips : ∀ e ∈ peer_container.peer_set, Peers.kind e ≠ .ipBlock
  selective : ∀ policy ∈ appended, Selective policy
  known : ∀ policy ∈ appended, ∀ e ∈ policy.base.selected_peers, e ∈ peer_container.peer_set

variable {self : TwoNetworkConfigsQuery P} {config : NetworkConfig P}

theorem keeps_iff : Keeps self config x ↔ AllowedByAll config x ∧ Possible config.peer_container x ∧
    (self.excludeIpv6 = true → ¬ IsIpv6 x.src ∧ ¬ IsIpv6 x.dst) := by
  unfold Keeps
  rw [and_assoc]
  refine and_congr_right fun allowed => and_congr_left' ?_
  obtain ⟨src, dst⟩ := allowed_ends allowed
  constructor
  · intro kept
    simp only [NeverAllowed, not_or, not_and, PeerContainer.mem_dns] at kept
    obtain ⟨fromIp, noDns⟩ := kept
    refine ⟨?_, dst, fun ip => ⟨(fromIp ip).1, fun dns => (fromIp ip).2 ?_ dns⟩⟩
    · rw [PeerContainer.mem_group_ips, PeerContainer.mem_group]
      exact (PeerContainer.mem_group_all.mp src).imp_left fun inside => ⟨inside, noDns inside⟩
    · exact (PeerContainer.mem_group_all.mp dst).resolve_right (by simp [dns])
  · intro possible never
    rcases never with ⟨ip, dst | dns⟩ | dns
    · exact (possible.kinds ip).1 dst
    · exact (possible.kinds ip).2 (PeerContainer.mem_dns.mp dns).2
    · have dns := (PeerContainer.mem_dns.mp dns).2
      rcases PeerContainer.mem_group_ips.mp possible.src with inside | ip
      · exact (PeerContainer.mem_group.mp inside).2 dns
      · simp [dns] at ip

/-- The configuration comes from appending parsed policies. -/
def ParsedConfig (config : NetworkConfig P) : Prop :=
  ∃ appended, WellPlaced config.policies_container appended ∧ Parsed config.peer_container appended

omit [Fintype E] [DecidableEq E] in
theorem ParsedConfig.no_ips (parsed : ParsedConfig config) {e : E}
    (member : e ∈ config.peer_container.peer_set) : Peers.kind e ≠ .ipBlock := by
  obtain ⟨_, _, parsed⟩ := parsed
  exact parsed.no_ips e member

omit [Fintype E] in
theorem ParsedConfig.captured_known (parsed : ParsedConfig config) {e : E}
    (captured : e ∈ config.getCapturedPods) : e ∈ config.peer_container.peer_set := by
  obtain ⟨_, placed, parsed⟩ := parsed
  obtain ⟨policy, stored, selected⟩ := mem_capturedPods.mp captured
  exact parsed.known policy (placed.inOrder.subset stored) e selected

theorem ParsedConfig.allowed_iff (parsed : ParsedConfig config)
    (possible : Possible config.peer_container x) (src : x.src ∉ config.getCapturedPods)
    (dst : x.dst ∉ config.getCapturedPods) : AllowedByAll config x ↔ WithoutHep x ∧
      (config.policies_container.layers.doesContainIstioLayers = true → DnsOverTcp x) := by
  obtain ⟨_, placed, parsed⟩ := parsed
  exact allowed_unselected placed parsed.selective possible src dst

theorem keeps_ends (keeps : Keeps self config x) :
    (x.src ∈ config.peer_container.peer_set ∨ Address self x.src) ∧
      (x.dst ∈ config.peer_container.peer_set ∨ Address self x.dst) ∧
      ¬ (Address self x.src ∧ Address self x.dst) := by
  obtain ⟨_, possible, excluded⟩ := keeps_iff.mp keeps
  refine ⟨?_, ?_, fun ⟨src, dst⟩ => (possible.kinds src.1).1 dst.1⟩
  · refine (PeerContainer.mem_group_all.mp possible.src_all).imp_right fun ip => ⟨ip, ?_⟩
    exact fun ⟨exclude, v6⟩ => (excluded exclude).1 ⟨ip, v6⟩
  · refine (PeerContainer.mem_group_all.mp possible.dst).imp_right fun ip => ⟨ip, ?_⟩
    exact fun ⟨exclude, v6⟩ => (excluded exclude).2 ⟨ip, v6⟩

variable {config' : NetworkConfig P}

theorem possible_other (possible : Possible config.peer_container x)
    (src : x.src ∈ config.peer_container.peer_set → x.src ∈ config'.peer_container.peer_set)
    (dst : x.dst ∈ config.peer_container.peer_set → x.dst ∈ config'.peer_container.peer_set) :
    Possible config'.peer_container x where
  src := by
    have inside := possible.src
    rw [PeerContainer.mem_group_ips, PeerContainer.mem_group] at inside ⊢
    exact inside.imp_left (And.imp_left src)
  dst := by
    have inside := possible.dst
    rw [PeerContainer.mem_group_all] at inside ⊢
    exact inside.imp_left dst
  kinds := possible.kinds

/-- A pod and a DNS entry, not over TCP, where only the second configuration has an Istio layer. -/
def CutOff (config config' : NetworkConfig P) (x : Flow E κ) : Prop :=
  config.policies_container.layers.doesContainIstioLayers = false ∧
    config'.policies_container.layers.doesContainIstioLayers = true ∧
    Peers.kind x.src = .pod ∧ Peers.kind x.dst = .dnsEntry ∧ x.protocol ≠ tcp

/-- Between peers that neither configuration selects nothing else changes. -/
theorem differ_unselected (parsed : ParsedConfig config) (parsed' : ParsedConfig config')
    (possible : Possible config.peer_container x) (possible' : Possible config'.peer_container x)
    (src : x.src ∉ config.getCapturedPods ∧ x.src ∉ config'.getCapturedPods)
    (dst : x.dst ∉ config.getCapturedPods ∧ x.dst ∉ config'.getCapturedPods) :
    AllowedByAll config x ∧ ¬ AllowedByAll config' x ↔ CutOff config config' x := by
  rw [parsed.allowed_iff possible src.1 dst.1, parsed'.allowed_iff possible' src.2 dst.2]
  have pod : Peers.kind x.dst = .dnsEntry → Peers.kind x.src ≠ .hostEP → Peers.kind x.src = .pod := by
    intro dns noHep
    rcases PeerContainer.mem_group_ips.mp possible.src with inside | ip
    · have noDns := (PeerContainer.mem_group.mp inside).2
      have noIp : Peers.kind x.src ≠ .ipBlock := fun ip => (possible.kinds ip).2 dns
      cases kind : Peers.kind x.src <;> simp_all
    · exact ((possible.kinds ip).2 dns).elim
  unfold CutOff WithoutHep DnsOverTcp
  constructor
  · rintro ⟨⟨noHep, overTcp⟩, cut⟩
    have istio' : config'.policies_container.layers.doesContainIstioLayers = true ∧
        Peers.kind x.dst = .dnsEntry ∧ x.protocol ≠ tcp := by
      by_contra none
      exact cut ⟨noHep, fun istio dns => by_contra fun other => none ⟨istio, dns, other⟩⟩
    obtain ⟨istio', dns, other⟩ := istio'
    refine ⟨?_, istio', pod dns noHep.1, dns, other⟩
    exact Bool.eq_false_iff.mpr fun istio => other (overTcp istio dns)
  · rintro ⟨noIstio, istio', pod, dns, other⟩
    refine ⟨⟨⟨by simp [pod], by simp [dns]⟩, by simp [noIstio]⟩, ?_⟩
    intro both
    exact other (both.2 istio' dns)

/-- Both configurations have the peer. -/
def Shared (config config' : NetworkConfig P) (e : E) : Prop :=
  e ∈ config.peer_container.peer_set ∧ e ∈ config'.peer_container.peer_set

/-- A change between ends that stay, neither of them selected, is a cut-off DNS entry. -/
theorem changed_unselected (parsed : ParsedConfig config) (parsed' : ParsedConfig config')
    (keeps : Keeps self config x) (lost : ¬ Keeps self config' x)
    (stay : ∀ e, e = x.src ∨ e = x.dst → e ∈ config.peer_container.peer_set →
      e ∈ config'.peer_container.peer_set)
    (unselected : ∀ e, e = x.src ∨ e = x.dst → Shared config config' e →
      e ∉ config.getCapturedPods ∧ e ∉ config'.getCapturedPods) :
    CutOff config config' x ∧ Shared config config' x.src ∧ Shared config config' x.dst := by
  obtain ⟨allowed, possible, excluded⟩ := keeps_iff.mp keeps
  have possible' := possible_other possible (stay _ (Or.inl rfl)) (stay _ (Or.inr rfl))
  have cut : ¬ AllowedByAll config' x :=
    fun allowed' => lost (keeps_iff.mpr ⟨allowed', possible', excluded⟩)
  have known : ∀ e, e = x.src ∨ e = x.dst → e ∈ config.peer_container.getAllPeersGroup true true →
      e ∉ config.getCapturedPods ∧ e ∉ config'.getCapturedPods := by
    intro e end_ inside
    by_cases member : e ∈ config.peer_container.peer_set
    · exact unselected e end_ ⟨member, stay e end_ member⟩
    · have ip := (PeerContainer.mem_group_all.mp inside).resolve_left member
      exact ⟨fun captured => member (parsed.captured_known captured),
        fun captured => parsed'.no_ips (parsed'.captured_known captured) ip⟩
  have cutOff := (differ_unselected parsed parsed' possible possible'
    (known _ (Or.inl rfl) possible.src_all) (known _ (Or.inr rfl) possible.dst)).mp ⟨allowed, cut⟩
  have ⟨_, _, pod, dns, _⟩ := cutOff
  have src := (PeerContainer.mem_group.mp (possible.src_pod (by simp [pod]))).1
  have dst := possible.dst_peer (by simp [dns])
  exact ⟨cutOff, ⟨src, stay _ (Or.inl rfl) src⟩, dst, stay _ (Or.inr rfl) dst⟩

/-- A connection that changes without being reported: it is cut off from a DNS entry in one of the
configurations, both configurations have its ends, and no policy selects them. -/
def Overlooked (self : TwoNetworkConfigsQuery P) (x : Flow E κ) : Prop :=
  (CutOff self.config1 self.config2 x ∨ CutOff self.config2 self.config1 x) ∧
    (Persistent self x.src ∧ Persistent self x.dst) ∧
    ¬ Captured self x.src ∧ ¬ Captured self x.dst

theorem loop_unreported (parsed1 : ParsedConfig self.config1) (parsed2 : ParsedConfig self.config2)
    (loop : x.src = x.dst) :
    (SemanticDiffQuery.computeDiff self).countP (removes x) = 0 ∧
      (SemanticDiffQuery.computeDiff self).countP (adds x) = 0 := by
  classical
  have apart1 : ∀ e, e ∈ self.config1.peer_container.peer_set → ¬ Address self e :=
    fun e member address => parsed1.no_ips member address.1
  have apart2 : ∀ e, e ∈ self.config2.peer_container.peer_set → ¬ Address self e :=
    fun e member address => parsed2.no_ips member address.1
  simp only [SemanticDiffQuery.computeDiff, List.countP_cons, List.countP_nil, removes, adds,
    Option.any_some, Option.any_none, decide_eq_true_eq, ExactSet.mem_inter, mem_withoutAutoConns,
    mem_connsBetween, mem_addresses, ExactSet.mem_sdiff, Between, loop]
  simp only [Finset.mem_sdiff, Finset.mem_inter, Finset.mem_union, PeerContainer.mem_group_dns]
  have apart1 := apart1 x.dst
  have apart2 := apart2 x.dst
  grind

/-- All other changes between distinct peers are reported once. -/
theorem reported_once (parsed1 : ParsedConfig self.config1) (parsed2 : ParsedConfig self.config2)
    (distinct : x.src ≠ x.dst) (seen : ¬ Overlooked self x) :
    (SemanticDiffQuery.computeDiff self).countP (removes x) = tally (Lost self x) ∧
      (SemanticDiffQuery.computeDiff self).countP (adds x) = tally (Gained self x) := by
  obtain ⟨removed, added⟩ := count_reported self distinct
  have apart1 : ∀ e, e ∈ self.config1.peer_container.peer_set → ¬ Address self e :=
    fun e member address => parsed1.no_ips member address.1
  have apart2 : ∀ e, e ∈ self.config2.peer_container.peer_set → ¬ Address self e :=
    fun e member address => parsed2.no_ips member address.1
  have place1 : ∀ e, e ∈ self.config1.peer_container.peer_set ∨ Address self e →
      (Removed self e ∧ ¬ Persistent self e ∧ ¬ Address self e) ∨
      (¬ Removed self e ∧ Persistent self e ∧ ¬ Address self e) ∨
      (¬ Removed self e ∧ ¬ Persistent self e ∧ Address self e) := by
    intro e either
    have apart := apart1 e
    unfold Removed Persistent
    tauto
  have place2 : ∀ e, e ∈ self.config2.peer_container.peer_set ∨ Address self e →
      (Added self e ∧ ¬ Persistent self e ∧ ¬ Address self e) ∨
      (¬ Added self e ∧ Persistent self e ∧ ¬ Address self e) ∨
      (¬ Added self e ∧ ¬ Persistent self e ∧ Address self e) := by
    intro e either
    have apart := apart2 e
    unfold Added Persistent
    tauto
  have notRemoved : ∀ e, e ∈ self.config2.peer_container.peer_set ∨ Address self e →
      ¬ Removed self e := fun e either removed =>
    either.elim removed.2 fun address => apart1 e removed.1 address
  have notAdded : ∀ e, e ∈ self.config1.peer_container.peer_set ∨ Address self e →
      ¬ Added self e := fun e either added =>
    either.elim added.2 fun address => apart2 e added.1 address
  have unselected : ∀ e, ¬ Captured self e → Persistent self e →
      e ∉ self.config1.getCapturedPods ∧ e ∉ self.config2.getCapturedPods :=
    fun e free stays => ⟨fun captured => free ⟨Or.inl captured, stays⟩,
      fun captured => free ⟨Or.inr captured, stays⟩⟩
  refine ⟨removed.trans (counted_once ?_ ?_ And.right And.right ?_ ?_ ?_),
    added.trans (counted_once ?_ ?_ And.right And.right ?_ ?_ ?_)⟩
  · exact fun keeps => place1 _ (keeps_ends keeps).1
  · exact fun keeps => place1 _ (keeps_ends keeps).2.1
  · exact fun keeps => (keeps_ends keeps).2.2
  · exact fun keeps => ⟨notRemoved _ (keeps_ends keeps).1, notRemoved _ (keeps_ends keeps).2.1⟩
  · intro keeps lost src dst
    by_contra free
    obtain ⟨freeSrc, freeDst⟩ := not_or.mp free
    obtain ⟨cut, stays⟩ := changed_unselected parsed1 parsed2 keeps lost
      (by
        rintro e (rfl | rfl) member
        · exact by_contra fun gone => src ⟨member, gone⟩
        · exact by_contra fun gone => dst ⟨member, gone⟩)
      (by
        rintro e (rfl | rfl) stays
        · exact unselected _ freeSrc stays
        · exact unselected _ freeDst stays)
    exact seen ⟨Or.inl cut, stays, freeSrc, freeDst⟩
  · exact fun keeps => place2 _ (keeps_ends keeps).1
  · exact fun keeps => place2 _ (keeps_ends keeps).2.1
  · exact fun keeps => (keeps_ends keeps).2.2
  · exact fun keeps => ⟨notAdded _ (keeps_ends keeps).1, notAdded _ (keeps_ends keeps).2.1⟩
  · intro keeps gained src dst
    by_contra free
    obtain ⟨freeSrc, freeDst⟩ := not_or.mp free
    obtain ⟨cut, stays⟩ := changed_unselected parsed2 parsed1 keeps gained
      (by
        rintro e (rfl | rfl) member
        · exact by_contra fun gone => src ⟨member, gone⟩
        · exact by_contra fun gone => dst ⟨member, gone⟩)
      (by
        rintro e (rfl | rfl) stays
        · exact (unselected _ freeSrc stays.symm).symm
        · exact (unselected _ freeDst stays.symm).symm)
    exact seen ⟨Or.inr cut, ⟨stays.1.symm, stays.2.symm⟩, freeSrc, freeDst⟩

theorem overlooked_unreported (parsed1 : ParsedConfig self.config1)
    (parsed2 : ParsedConfig self.config2) (overlooked : Overlooked self x) :
    x.src ≠ x.dst ∧ (Lost self x ∨ Gained self x) ∧
      (SemanticDiffQuery.computeDiff self).countP (removes x) = 0 ∧
      (SemanticDiffQuery.computeDiff self).countP (adds x) = 0 := by
  obtain ⟨cut, ⟨src, dst⟩, freeSrc, freeDst⟩ := overlooked
  have kinds : Peers.kind x.src = .pod ∧ Peers.kind x.dst = .dnsEntry := by
    rcases cut with ⟨_, _, pod, dns, _⟩ | ⟨_, _, pod, dns, _⟩
    · exact ⟨pod, dns⟩
    · exact ⟨pod, dns⟩
  have distinct : x.src ≠ x.dst := by
    intro same
    rw [same, kinds.2] at kinds
    cases kinds.1
  have possible : ∀ config : NetworkConfig P, x.src ∈ config.peer_container.peer_set →
      x.dst ∈ config.peer_container.peer_set → Possible config.peer_container x := by
    intro config src dst
    refine ⟨?_, PeerContainer.mem_group_all.mpr (Or.inl dst), by simp [kinds.1]⟩
    exact PeerContainer.mem_group_ips.mpr (Or.inl (PeerContainer.mem_group.mpr
      ⟨src, by simp [kinds.1]⟩))
  have possible1 := possible self.config1 src.1 dst.1
  have possible2 := possible self.config2 src.2 dst.2
  have unselected : ∀ e, ¬ Captured self e → Persistent self e →
      e ∉ self.config1.getCapturedPods ∧ e ∉ self.config2.getCapturedPods :=
    fun e free stays => ⟨fun captured => free ⟨Or.inl captured, stays⟩,
      fun captured => free ⟨Or.inr captured, stays⟩⟩
  have shown : ∀ config : NetworkConfig P, Possible config.peer_container x →
      (Keeps self config x ↔ AllowedByAll config x) := by
    intro config possible
    rw [keeps_iff]
    exact and_iff_left ⟨possible, fun _ => ⟨by simp [IsIpv6, kinds.1], by simp [IsIpv6, kinds.2]⟩⟩
  refine ⟨distinct, ?_, ?_⟩
  · unfold Lost Gained
    rw [shown _ possible1, shown _ possible2,
      differ_unselected parsed1 parsed2 possible1 possible2 (unselected _ freeSrc src)
        (unselected _ freeDst dst),
      differ_unselected parsed2 parsed1 possible2 possible1 (unselected _ freeSrc src).symm
        (unselected _ freeDst dst).symm]
    exact cut
  · obtain ⟨removed, added⟩ := count_reported self distinct
    rw [removed, added]
    simp [tally, Between, Removed, Added, Address, kinds, src.1, src.2, dst.1, dst.2, freeSrc, freeDst]

/-- A pod and a DNS entry. -/
def podAndDns : PeerContainer PeerKind := ⟨{.pod, .dnsEntry}⟩

theorem nothing_inside : ∀ rule ∈ ([] : List (IstioPolicyRule (FlowSet PeerKind Unit))),
    Inside (∅ : PeerSet PeerKind) true rule.props := nofun

theorem nothing_noDns : ∀ e ∈ (∅ : PeerSet PeerKind), Peers.kind e ≠ .dnsEntry := by simp

/-- An authorization policy that selects no pod. -/
def idlePolicy : Policy (FlowSet PeerKind Unit) := .istio
  { name := "idle"
    policy_namespace := some "default"
    selected_peers := ∅
    affects_ingress := true
    affects_egress := false
    policy_kind := .IstioAuthorizationPolicy
    action := .Allow
    ingress_rules := []
    kind := rfl
    ingress_inside := nothing_inside
    no_dns := nothing_noDns }

theorem podAndDns_parsed {appended : List (Policy (FlowSet PeerKind Unit))}
    (idle : ∀ policy ∈ appended, policy = idlePolicy) : Parsed podAndDns appended where
  no_ips := by decide
  selective := by
    intro policy member
    rw [idle policy member]
    exact trivial
  known := by
    intro policy member e selected
    rw [idle policy member] at selected
    cases selected

end Cover
end Nca.NetworkConfig
