import Nca.CoreDS.IpBlock
import Nca.Lib.AlignedBlocks
import Mathlib.Data.List.Perm.Subperm

/-!
The CIDRs by which a block of addresses is written. Each range of the block is summarized by the
largest networks that fit. Read again they give the same block, and no list of fewer networks has
the same addresses.
-/

namespace Nca.CoreDS
open Lib Python CanonicalIntervalSetOf
open AlignedBlocks (Block Covers cover cover_covers)

/-- `ip_network` of a number and a number of shared bits, which must leave no other bits set. -/
def IpNetwork.strict (version : IpVersion) (address prefixlen : Nat) : Except Failure IpNetwork :=
  if bound : address < 2 ^ version.width then
    if prefix_le : prefixlen ≤ version.width then
      if 2 ^ (version.width - prefixlen) ∣ address then .ok ⟨version, address, bound, prefixlen, prefix_le⟩
      else .error (.raised "has host bits set")
    else .error (.raised "is not a valid netmask")
  else .error (.raised "is not permitted as an address")

/-- `summarize_address_range`. Past the last address of the family there is nothing left to summarize. -/
def summarizeAddressRange (first last : IPNetworkAddress) : Except Failure (List IpNetwork) :=
  if first.version ≠ last.version then .error (.raised "are not of the same version")
  else if last < first then .error (.raised "last IP address must be greater than first")
  else (cover first.version.width last.address first.address).mapM fun block =>
    IpNetwork.strict first.version block.start (first.version.width - block.size)

namespace IpBlock

/-- `IpBlock.get_cidr_list`, before the networks are turned to texts. -/
def getCidrList (self : IpBlock) : Except Failure (List IpNetwork) := do
  let lists ← self.interval_set.mapM fun interval => summarizeAddressRange interval.start interval.end_
  pure lists.flatten

/-- A block from texts of CIDRs without exceptions, one after the other. -/
def ofCidrList (cidrs : List IpNetwork) : Except Failure IpBlock :=
  cidrs.foldlM (fun block cidr => do pure (← block.addCidr cidr []).1) {}

end IpBlock

namespace IpNetwork

variable {n o : IpNetwork} {a : IPNetworkAddress} {version : IpVersion} {b c : Block}

/-- The addresses of a network as an aligned block. -/
def block (n : IpNetwork) : Block := ⟨n.network_address.address, n.version.width - n.prefixlen⟩

theorem block_aligned : n.block.Aligned := Nat.dvd_mul_left _ _

theorem mem_block : a ∈ n ↔ a.version = n.version ∧ a.address ∈ n.block := by
  have some : 0 < n.num_addresses := Nat.two_pow_pos _
  show a.version = n.version ∧ _ ↔ _
  rw [Nat.div_eq_iff some, Block.mem_iff]
  show _ ↔ _ ∧ n.address / n.num_addresses * n.num_addresses ≤ a.address ∧
    a.address < n.address / n.num_addresses * n.num_addresses + n.num_addresses
  refine and_congr_right fun _ => and_congr_right fun _ => ?_
  omega

theorem network_address_mem : n.network_address ∈ n := mem_block.mpr ⟨rfl, Block.start_mem⟩

theorem broadcast_address_mem : n.broadcast_address ∈ n := mem_interval.mp ⟨interval_proper, le_refl _⟩

/-- The network made of a block of a summary. -/
def Summarizes (version : IpVersion) (b : Block) (n : IpNetwork) : Prop :=
  n.version = version ∧ n.block = b

theorem strict_summarizes (aligned : b.Aligned) (few : b.size ≤ version.width)
    (within : b.start + 2 ^ b.size ≤ 2 ^ version.width) :
    Returns (strict version b.start (version.width - b.size)) (Summarizes version b) := by
  have positive := Nat.two_pow_pos b.size
  have size : version.width - (version.width - b.size) = b.size := Nat.sub_sub_self few
  unfold strict
  rw [dif_pos (by omega), dif_pos (Nat.sub_le _ _), if_pos (by rwa [size])]
  refine returns_ok ⟨rfl, ?_⟩
  unfold block network_address num_addresses
  dsimp only
  rw [size, Nat.div_mul_cancel aligned]

end IpNetwork

namespace IpBlock

variable {first last a : IPNetworkAddress} {self : IpBlock} {i j : IntervalOf IPNetworkAddress}
  {o : IpNetwork} {cidrs others : List IpNetwork}

theorem summarizeAddressRange_spec (same : first.version = last.version) (proper : first ≤ last) :
    Returns (summarizeAddressRange first last)
      (List.Forall₂ (IpNetwork.Summarizes first.version)
        (cover first.version.width last.address first.address)) := by
  have covers := cover_covers first.version.width last.address first.address
  have top := last.bound
  rw [← same] at top
  unfold summarizeAddressRange
  rw [if_neg (not_not.mpr same), if_neg (not_lt.mpr proper)]
  refine returns_mapM ?_
  intro b listed
  obtain ⟨aligned, few, within⟩ := covers.aligned listed
  exact IpNetwork.strict_summarizes aligned few (by omega)

/-- The networks of one interval. -/
def Summary (i : IntervalOf IPNetworkAddress) (nets : List IpNetwork) : Prop :=
  List.Forall₂ (IpNetwork.Summarizes i.start.version)
    (cover i.start.version.width i.end_.address i.start.address) nets

theorem mem_range (same : i.start.version = i.end_.version) : a ∈ i ↔
    a.version = i.start.version ∧ i.start.address ≤ a.address ∧ a.address ≤ i.end_.address := by
  show i.start.le a ∧ a.le i.end_ ↔ _
  unfold IPNetworkAddress.le
  rw [← same]
  by_cases family : a.version = i.start.version
  · rw [if_pos family.symm, if_pos family, and_iff_right family]
  · rw [if_neg (Ne.symm family), if_neg family]
    refine iff_of_false ?_ fun inside => family inside.1
    omega

theorem mem_summary {nets : List IpNetwork} (same : i.start.version = i.end_.version) (summary : Summary i nets) :
    (∃ n ∈ nets, a ∈ n) ↔ a ∈ i := by
  have blocks : (∃ b ∈ cover i.start.version.width i.end_.address i.start.address,
      a.version = i.start.version ∧ a.address ∈ b) ↔ ∃ n ∈ nets, a ∈ n := by
    apply forall₂_exists summary
    intro b n ⟨version, block⟩
    rw [IpNetwork.mem_block, version, block]
  rw [← blocks, mem_range same, ← (cover_covers i.start.version.width _ _).exact]
  simp only [and_left_comm, exists_and_left]

/-- Two intervals of a block have a gap in between. -/
theorem gap (wellFormed : WellFormed self) (listed : i ∈ self.interval_set) (listed' : j ∈ self.interval_set)
    (differ : i ≠ j) : i.end_.index + 1 < j.start.index ∨ j.end_.index + 1 < i.start.index := by
  have sorted : self.interval_set.Pairwise fun i j => i.end_.index + 1 < j.start.index :=
    List.pairwise_map.mp (wellFormed_holds wellFormed).1.sorted
  have either : Std.Symm fun i j : IntervalOf IPNetworkAddress =>
      i.end_.index + 1 < j.start.index ∨ j.end_.index + 1 < i.start.index := ⟨fun _ _ => Or.symm⟩
  have pairs : self.interval_set.Pairwise fun i j =>
      i.end_.index + 1 < j.start.index ∨ j.end_.index + 1 < i.start.index := sorted.imp Or.inl
  exact pairs.forall listed listed' differ

theorem one_interval (wellFormed : WellFormed self) (listed : i ∈ self.interval_set)
    (listed' : j ∈ self.interval_set) (inside : a ∈ i) (inside' : a ∈ j) : i = j := by
  by_contra differ
  have apart := gap wellFormed listed listed' differ
  have low := IPNetworkAddress.index_le.mpr inside.1
  have high := IPNetworkAddress.index_le.mpr inside.2
  have low' := IPNetworkAddress.index_le.mpr inside'.1
  have high' := IPNetworkAddress.index_le.mpr inside'.2
  omega

/-- A network inside a block lies in one of its intervals. -/
theorem network_within (wellFormed : WellFormed self) (inside : ∀ a ∈ o, a ∈ self) :
    ∃ i ∈ self.interval_set, ∀ a ∈ o, a ∈ i := by
  obtain ⟨i, listed, low, high⟩ := inside _ IpNetwork.network_address_mem
  have low := IPNetworkAddress.index_le.mpr low
  have high := IPNetworkAddress.index_le.mpr high
  have ends : o.broadcast_address.index ≤ i.end_.index := by
    by_contra beyond
    -- then the address after the interval is in the network
    have next : i.end_.index + 1 ∈ o.interval.places :=
      show o.network_address.index ≤ i.end_.index + 1 ∧ i.end_.index + 1 ≤ o.broadcast_address.index by omega
    obtain ⟨c, here⟩ := IpNetwork.interval_solid _ next
    have among : c ∈ o := IpNetwork.mem_interval.mp (IntervalOf.mem_places.mp (here ▸ next))
    have here : c.index = i.end_.index + 1 := here
    obtain ⟨j, listed', low', high'⟩ := inside c among
    have low' := IPNetworkAddress.index_le.mpr low'
    have high' := IPNetworkAddress.index_le.mpr high'
    by_cases same : i = j
    · subst same
      omega
    · have apart := gap wellFormed listed listed' same
      have proper := IPNetworkAddress.index_le.mpr (wellFormed.proper i listed)
      omega
  refine ⟨i, listed, ?_⟩
  intro a member
  obtain ⟨above, below⟩ := IpNetwork.mem_interval.mpr member
  have above : o.network_address.index ≤ a.index := IPNetworkAddress.index_le.mpr above
  have below : a.index ≤ o.broadcast_address.index := IPNetworkAddress.index_le.mpr below
  exact ⟨IPNetworkAddress.index_le.mp (by omega), IPNetworkAddress.index_le.mp (by omega)⟩

/-- No network inside a block has the first addresses of two networks of its summaries. -/
def Separated (self : IpBlock) (n n' : IpNetwork) : Prop :=
  ∀ o : IpNetwork, (∀ a ∈ o, a ∈ self) → n.network_address ∈ o → n'.network_address ∉ o

theorem summary_separated {nets : List IpNetwork} (wellFormed : WellFormed self)
    (listed : i ∈ self.interval_set) (summary : Summary i nets) : nets.Pairwise (Separated self) := by
  have covers := cover_covers i.start.version.width i.end_.address i.start.address
  have same := wellFormed.one_family i listed
  refine forall₂_pairwise (forall₂_members summary) covers.ordered ?_
  intro b b' n n' ⟨among, version, block⟩ ⟨among', version', block'⟩ before o inside hit hit'
  obtain ⟨j, listed', within⟩ := network_within wellFormed inside
  have first_address : n.network_address ∈ i :=
    (mem_range same).mpr ⟨version, (covers.exact _).mp ⟨b, among, block ▸ Block.start_mem⟩⟩
  have here := one_interval wellFormed listed listed' first_address (within _ hit)
  subst here
  have low := (mem_range same).mp (within _ IpNetwork.network_address_mem)
  have high := (mem_range same).mp (within _ IpNetwork.broadcast_address_mem)
  have family : o.version = i.start.version := low.1
  have fits : o.block.start + 2 ^ o.block.size ≤ i.end_.address + 1 := by
    have some : 0 < o.num_addresses := Nat.two_pow_pos _
    have last : o.network_address.address + (o.num_addresses - 1) ≤ i.end_.address := high.2.2
    show o.network_address.address + o.num_addresses ≤ _
    omega
  have few : o.block.size ≤ i.start.version.width := family ▸ Nat.sub_le _ _
  have starts : b.start ∈ o.block := by
    rw [← block]
    exact (IpNetwork.mem_block.mp hit).2
  have starts' : b'.start ∈ o.block := by
    rw [← block']
    exact (IpNetwork.mem_block.mp hit').2
  have equal := covers.separate IpNetwork.block_aligned few low.2.1 fits among among' starts starts'
  have positive := Nat.two_pow_pos b.size
  rw [equal] at before positive
  omega

theorem getCidrList_spec (wellFormed : WellFormed self) : Returns (getCidrList self) fun cidrs =>
    (∀ a, (∃ n ∈ cidrs, a ∈ n) ↔ a ∈ self) ∧ cidrs.Pairwise (Separated self) := by
  have each : Returns (self.interval_set.mapM fun i => summarizeAddressRange i.start i.end_)
      (List.Forall₂ Summary self.interval_set) :=
    returns_mapM fun i listed =>
      summarizeAddressRange_spec (wellFormed.one_family i listed) (wellFormed.proper i listed)
  refine returns_bind each ?_
  intro lists summaries
  have summaries := forall₂_members summaries
  refine returns_pure ⟨?_, ?_⟩
  · intro a
    have ranges : (∃ i ∈ self.interval_set, i ∈ self.interval_set ∧ a ∈ i) ↔ ∃ nets ∈ lists, ∃ n ∈ nets, a ∈ n := by
      apply forall₂_exists summaries
      intro i nets ⟨listed, summary⟩
      rw [mem_summary (wellFormed.one_family i listed) summary, and_iff_right listed]
    have shown : a ∈ self ↔ ∃ i ∈ self.interval_set, i ∈ self.interval_set ∧ a ∈ i :=
      exists_congr fun i => ⟨fun inside => ⟨inside.1, inside⟩, And.right⟩
    rw [shown, ranges]
    refine ⟨?_, ?_⟩
    · intro ⟨n, listed, inside⟩
      obtain ⟨nets, among, listed⟩ := List.mem_flatten.mp listed
      exact ⟨nets, among, n, listed, inside⟩
    · intro ⟨nets, among, n, listed, inside⟩
      exact ⟨n, List.mem_flatten.mpr ⟨nets, among, listed⟩, inside⟩
  · refine List.pairwise_flatten.mpr ⟨?_, ?_⟩
    · intro nets among
      obtain ⟨i, _, listed, summary⟩ := forall₂_source summaries among
      exact summary_separated wellFormed listed summary
    · refine forall₂_pairwise summaries wellFormed.sorted ?_
      intro i j nets nets' ⟨listed, summary⟩ ⟨listed', summary'⟩ before n among n' among' o inside hit hit'
      obtain ⟨k, listed'', within⟩ := network_within wellFormed inside
      have in_first : n.network_address ∈ i := (mem_summary (wellFormed.one_family i listed) summary).mp
        ⟨n, among, IpNetwork.network_address_mem⟩
      have in_second : n'.network_address ∈ j := (mem_summary (wellFormed.one_family j listed') summary').mp
        ⟨n', among', IpNetwork.network_address_mem⟩
      have here := one_interval wellFormed listed listed'' in_first (within _ hit)
      have there := one_interval wellFormed listed' listed'' in_second (within _ hit')
      have after : i.end_ < i.start := (here.trans there.symm).symm ▸ before.1
      exact absurd (wellFormed.proper i listed) (not_le.mpr after)

/-- A list of networks without exceptions makes the block of their addresses. -/
theorem ofCidrList_holds : Returns (ofCidrList cidrs) (Holds · {a | ∃ n ∈ cidrs, a ∈ n}) := by
  refine returns_foldlM (fun done block => Holds block {a | ∃ n ∈ done, a ∈ n}) ?_ ?_
  · simpa using holds_empty
  · intro before cidr after block whole holds
    have step := @holds_addCidr block _ cidr [] holds
    refine returns_bind step ?_
    intro r added
    refine returns_pure ?_
    simpa [exceptionsMade, or_and_right, exists_or, Set.ofPred_or] using added

/-- In every run each block is written by CIDRs from which it is made again, and no list of fewer
CIDRs has the same addresses. -/
theorem getCidrList_fewest {V : Type} [DecidableEq V] (cmds : List (Cmd V)) :
    Returns (run cmds) fun store => ∀ v, Returns (getCidrList (store v)) fun cidrs =>
      ofCidrList cidrs = .ok (store v) ∧
      ∀ others : List IpNetwork, (∀ a, a ∈ store v ↔ ∃ n ∈ others, a ∈ n) → cidrs.length ≤ others.length := by
  have follows : Returns (run cmds) (StoreHolds · (absRun cmds)) :=
    run_follows (fun _ _ cmd stored _ => step_holds stored cmd) (fun _ => holds_empty)
      (everyCmd_always fun _ _ => trivial)
  apply returns_mono follows
  intro store stored v
  have wellFormed := holds_wellFormed (stored v)
  apply returns_mono (getCidrList_spec wellFormed)
  intro cidrs ⟨exact, separated⟩
  refine ⟨?_, ?_⟩
  · obtain ⟨block, made, holds⟩ := @ofCidrList_holds cidrs
    have addresses : {a | ∃ n ∈ cidrs, a ∈ n} = {a | a ∈ store v} := Set.ext exact
    rw [made, (holds_eq holds (wellFormed_holds wellFormed)).mpr addresses]
  · intro others same
    refine AlignedBlocks.length_le_of_separated (fun n o => n.network_address ∈ o) ?_ ?_
    · intro n listed
      exact (same _).mp ((exact _).mp ⟨n, listed, IpNetwork.network_address_mem⟩)
    · apply separated.imp
      intro n n' clear o listed
      exact clear o fun a member => (same a).mpr ⟨o, listed, member⟩

end IpBlock
end Nca.CoreDS
