import Nca.CoreDS.PeerSetOperations

/-!
The IP blocks of sources and conditions of Istio authorization policies: all addresses of one list
without those of another one.
-/

namespace Nca.Parsers
open CoreDS Lib Python CanonicalIntervalSetOf

namespace IstioPolicyYamlParser

variable {K : Type} [DecidableEq K]

/-- What the loops of `parse_ip_block` go over: texts of addresses and CIDRs, or the ranges of a block. -/
inductive CidrItem where
  | text (cidr : IpNetwork)
  | range (interval : IntervalOf IPNetworkAddress)

/-- `ip_network`. A range is written in brackets, and is no network. -/
def ipNetwork : CidrItem → Except Failure IpNetwork
  | .text cidr => pure cidr
  | .range _ => .error (.raised "does not appear to be an IPv4 or IPv6 network")

/-- `IpBlock(cidr)`. -/
def ipBlockOf (cidr : CidrItem) : Except Failure IpBlock := do
  let (block, _) ← IpBlock.addCidr {} (← ipNetwork cidr) []
  pure block

/-- `0.0.0.0/0` and `::/0`. -/
def allOf (version : IpVersion) : IpNetwork where
  version := version
  address := 0
  bound := Nat.two_pow_pos _
  prefixlen := 0
  prefix_le := Nat.zero_le _

/-- `IpBlock.get_all_ips_block()`. -/
def getAllIpsBlock : Except Failure IpBlock := do
  let (res, _) ← IpBlock.addCidr {} (allOf .v4) []
  let (res, _) ← IpBlock.addCidr res (allOf .v6) []
  pure res

def isIpv4Block (block : IpBlock) : Bool :=
  decide ((block.interval_set.filter fun i => i.start.version = .v4).length = block.len)

/-- The loop of `check_and_update_has_ipv6_addresses`: whether a block is not one of IPv4 addresses. -/
def hasIpv6Block (heap : Objects K) : List (PeerRef K) → Except Failure Bool
  | [] => pure false
  | .other _ :: rest => hasIpv6Block heap rest
  | .ipBlock ref :: rest => do
    if !isIpv4Block (← item heap.blocks ref) then pure true else hasIpv6Block heap rest

/-- `ips_list` as the first loop goes over it. If it is not set, it is the block of all addresses. -/
def positiveItems : Option (List IpNetwork) → Except Failure (List CidrItem)
  | none => do pure ((← getAllIpsBlock).interval_set.map .range)
  | some ips_list => pure (ips_list.map .text)

/-- `parse_ip_block`, with the peer set that it returns, the objects, and the flag of the policy. -/
def parseIpBlock (has_ipv6_addresses : Bool) (heap : Objects K)
    (ips_list not_ips_list : Option (List IpNetwork)) :
    Except Failure ((Nat × Objects K) × Bool) := do
  let ips_list ← positiveItems ips_list
  let not_ips_list := (not_ips_list.getD []).map .text
  let res_ip_block ← ips_list.foldlM (fun res cidr => do res.or (← ipBlockOf cidr)) {}
  let res_ip_block ← not_ips_list.foldlM (fun res cidr => do pure (res.sub (← ipBlockOf cidr))) res_ip_block
  let (res_peer_set, heap) := heap.split res_ip_block
  if has_ipv6_addresses then pure ((res_peer_set, heap), true)
  else do
    pure ((res_peer_set, heap), ← hasIpv6Block heap (← item heap.sets res_peer_set))

/-- The addresses of the first list, of which there is no restriction if it is missing, without those
of the second. -/
def addressesMeant (ips_list not_ips_list : Option (List IpNetwork)) : Set IPNetworkAddress :=
  {a | (∀ ips, ips_list = some ips → ∃ cidr ∈ ips, a ∈ cidr) ∧
    ¬ ∃ cidr ∈ not_ips_list.getD [], a ∈ cidr}

variable {heap : Objects K} {ips_list not_ips_list : Option (List IpNetwork)} {A : Set IPNetworkAddress}
  {block : IpBlock} {cidrs : List IpNetwork}

theorem holds_cidr {self : IpBlock} (holds : Holds self A) (cidr : IpNetwork) :
    Returns (IpBlock.addCidr self cidr []) fun r => Holds r.1 (A ∪ {a | a ∈ cidr}) := by
  apply returns_mono (IpBlock.holds_addCidr holds)
  intro r added
  have none : {a : IPNetworkAddress | ∃ e ∈ IpBlock.exceptionsMade cidr [], a ∈ e} = ∅ := by
    simp [IpBlock.exceptionsMade]
  rwa [none, Set.sdiff_empty] at added

theorem ipBlockOf_text (cidr : IpNetwork) :
    Returns (ipBlockOf (.text cidr)) (Holds · {a | a ∈ cidr}) := by
  have read : ipNetwork (.text cidr) = .ok cidr := rfl
  unfold ipBlockOf
  rw [read, ok_bind]
  apply returns_bind (holds_cidr holds_empty cidr)
  intro ⟨block, _⟩ holds
  rw [Set.empty_union] at holds
  exact returns_pure holds

theorem addCidrs_spec (holds : Holds block A) :
    Returns ((cidrs.map .text).foldlM (fun res cidr => do res.or (← ipBlockOf cidr)) block)
      (Holds · (A ∪ {a | ∃ cidr ∈ cidrs, a ∈ cidr})) := by
  induction cidrs generalizing block A with
  | nil =>
    have none : {a : IPNetworkAddress | ∃ cidr ∈ ([] : List IpNetwork), a ∈ cidr} = ∅ := by simp
    rw [none, Set.union_empty]
    exact returns_pure holds
  | cons cidr rest ih =>
    have step : Returns (do block.or (← ipBlockOf (.text cidr))) (Holds · (A ∪ {a | a ∈ cidr})) :=
      returns_bind (ipBlockOf_text cidr) fun _ one => holds_or holds one
    rw [List.map_cons, List.foldlM_cons]
    apply returns_bind step
    intro res added
    have all := ih added
    rw [Set.union_assoc] at all
    simpa only [List.mem_cons, exists_eq_or_imp, Set.ofPred_or] using all

theorem removeCidrs_spec (holds : Holds block A) :
    Returns ((cidrs.map .text).foldlM (fun res cidr => do pure (res.sub (← ipBlockOf cidr))) block)
      (Holds · (A \ {a | ∃ cidr ∈ cidrs, a ∈ cidr})) := by
  induction cidrs generalizing block A with
  | nil =>
    have none : {a : IPNetworkAddress | ∃ cidr ∈ ([] : List IpNetwork), a ∈ cidr} = ∅ := by simp
    rw [none, Set.sdiff_empty]
    exact returns_pure holds
  | cons cidr rest ih =>
    have step : Returns (do pure (block.sub (← ipBlockOf (.text cidr))))
        (Holds · (A \ {a | a ∈ cidr})) :=
      returns_bind (ipBlockOf_text cidr) fun _ one => returns_pure (holds_sub holds one)
    rw [List.map_cons, List.foldlM_cons]
    apply returns_bind step
    intro res removed
    have all := ih removed
    rw [Set.sdiff_sdiff] at all
    simpa only [List.mem_cons, exists_eq_or_imp, Set.ofPred_or] using all

theorem mem_allOf {version : IpVersion} {a : IPNetworkAddress} : a ∈ allOf version ↔ a.version = version := by
  constructor
  · exact fun inside => inside.1
  · intro same
    refine ⟨same, ?_⟩
    show a.address / 2 ^ (version.width - 0) = 0 / 2 ^ (version.width - 0)
    rw [Nat.sub_zero, Nat.zero_div]
    apply Nat.div_eq_of_lt
    rw [← same]
    exact a.bound

theorem getAllIpsBlock_spec : Returns getAllIpsBlock (Holds · Set.univ) := by
  apply returns_bind (holds_cidr holds_empty (allOf .v4))
  intro ⟨four, _⟩ first
  apply returns_bind (holds_cidr first (allOf .v6))
  intro ⟨both, _⟩ second
  have whole : ∅ ∪ {a | a ∈ allOf .v4} ∪ {a | a ∈ allOf .v6} = Set.univ := by
    ext a
    rw [Set.empty_union]
    show (a ∈ allOf .v4 ∨ a ∈ allOf .v6) ↔ True
    rw [mem_allOf, mem_allOf]
    cases a.version with
    | v4 => simp
    | v6 => simp
  rw [whole] at second
  exact returns_pure second

omit [DecidableEq K] in
theorem hasIpv6Block_returns {peers : List (PeerRef K)} (refers : heap.Refers peers) :
    Returns (hasIpv6Block heap peers) fun _ => True := by
  induction peers with
  | nil => exact returns_pure trivial
  | cons peer rest ih =>
    have later := ih fun ref member => refers ref (List.mem_cons_of_mem peer member)
    cases peer with
    | other k => exact later
    | ipBlock ref =>
      obtain ⟨block, found⟩ : ∃ block, heap.blocks[ref]? = some block :=
        ⟨_, List.getElem?_eq_getElem (refers ref List.mem_cons_self)⟩
      unfold hasIpv6Block
      rw [item_found found, ok_bind]
      exact returns_ite (fun _ => returns_pure trivial) fun _ => later

/-- Where the first list is there, both loops go over texts. -/
theorem parseIpBlock_listed (valid : heap.Valid) (has_ipv6_addresses : Bool) (ips : List IpNetwork) :
    Returns (parseIpBlock has_ipv6_addresses heap (some ips) not_ips_list) fun r =>
      Objects.Made heap ⟨∅, addressesMeant (some ips) not_ips_list⟩ r.1 := by
  apply returns_bind (addCidrs_spec holds_empty)
  intro added holds
  apply returns_bind (removeCidrs_spec holds)
  intro res holds
  have meant : (∅ ∪ {a | ∃ cidr ∈ ips, a ∈ cidr}) \ {a | ∃ cidr ∈ not_ips_list.getD [], a ∈ cidr} =
      addressesMeant (some ips) not_ips_list := by
    ext a
    simp [addressesMeant]
  rw [meant] at holds
  have made : Objects.Made heap ⟨∅, _⟩ (heap.split res) := PeerSetRef.split_spec valid holds
  dsimp only
  apply returns_ite
  · exact fun _ => returns_pure made
  · intro _
    obtain ⟨peers, found, _⟩ := made.covers
    rw [item_found found, ok_bind]
    apply returns_bind (hasIpv6Block_returns (made.valid.refers found))
    exact fun _ _ => returns_pure made

/-- Where it is missing, the ranges of the block of all addresses are taken for texts. -/
theorem parseIpBlock_missing (has_ipv6_addresses : Bool) :
    parseIpBlock has_ipv6_addresses heap none not_ips_list =
      .error (.raised "does not appear to be an IPv4 or IPv6 network") := by
  obtain ⟨all, run, holds⟩ := getAllIpsBlock_spec
  obtain ⟨i, listed, _⟩ := (holds_mem holds).mpr (Set.mem_univ (allOf .v4).network_address)
  cases ranges : all.interval_set with
  | nil =>
    rw [ranges] at listed
    cases listed
  | cons first rest =>
    have items : positiveItems none = .ok (.range first :: rest.map .range) := by
      unfold positiveItems
      rw [run, ok_bind, ranges]
      rfl
    unfold parseIpBlock
    rw [items]
    rfl

/-- The peer set has the addresses that are meant, without an error, just if the first list is there. -/
theorem parseIpBlock_exact (valid : heap.Valid) (has_ipv6_addresses : Bool) :
    Returns (parseIpBlock has_ipv6_addresses heap ips_list not_ips_list) (fun r =>
      Objects.Made heap ⟨∅, addressesMeant ips_list not_ips_list⟩ r.1) ↔ ips_list ≠ none := by
  cases ips_list with
  | none =>
    apply iff_of_false
    · intro ⟨r, run, _⟩
      rw [parseIpBlock_missing] at run
      cases run
    · exact not_not.mpr rfl
  | some ips => exact iff_of_true (parseIpBlock_listed valid has_ipv6_addresses ips) nofun

section Example

/-- `10.0.0.0/8`. -/
def tenNet : IpNetwork := ⟨.v4, 167772160, by decide, 8, by decide⟩

theorem tenNet_exact : Returns (parseIpBlock false ({} : Objects String) (some [tenNet]) none) (fun r =>
    Objects.Made {} ⟨∅, addressesMeant (some [tenNet]) none⟩ r.1) ↔ some [tenNet] ≠ none :=
  parseIpBlock_exact Objects.valid_empty false

/-- Only `notIpBlocks` is given: all addresses but those of `10.0.0.0/8` are meant. -/
theorem notTenNet_raises : ¬ Returns (parseIpBlock false ({} : Objects String) none (some [tenNet])) (fun r =>
    Objects.Made {} ⟨∅, addressesMeant none (some [tenNet])⟩ r.1) := by
  intro ⟨r, run, _⟩
  rw [parseIpBlock_missing] at run
  cases run

end Example

end IstioPolicyYamlParser
end Nca.Parsers
