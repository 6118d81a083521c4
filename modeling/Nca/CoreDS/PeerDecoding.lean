import Nca.CoreDS.RegisteredPeers

/-!
Peer sets from indices. Intervals of addresses become blocks; an interval of other peers is cut at
the last registered peer, also where it starts after it.
-/

namespace Nca.CoreDS
open Lib Python BasePeerSet CanonicalIntervalSetOf

namespace RegisteredPeers
open Objects

variable {K : Type} [DecidableEq K] {self : RegisteredPeers K} {heap : Objects K} {i : Interval}

/-- The interval lies in one of the three ranges of indices. -/
def InOneRange (i : Interval) : Prop :=
  (min_ipv4_index ≤ i.start ∧ i.end_ ≤ max_ipv4_index) ∨
  (min_ipv6_index ≤ i.start ∧ i.end_ ≤ max_ipv6_index) ∨
  (min_pod_index ≤ i.start ∧ i.end_ ≤ max_pod_index)

/-- The places in the list of peers that the loop reads for an interval. -/
def Reached (self : RegisteredPeers K) (i : Interval) (j : Nat) : Prop :=
  min_pod_index ≤ i.start ∧
    min (i.start - min_pod_index) ((self.ordered_peer_list.length : Int) - 1) ≤ j ∧
    j ≤ min (i.end_ - min_pod_index) ((self.ordered_peer_list.length : Int) - 1)

structure Decoded (self : RegisteredPeers K) (acc : Decoding K) (before : List Interval) : Prop where
  addresses : ∃ A B, Holds acc.ipv4block A ∧ Holds acc.ipv6block B ∧
    A ∪ B = {a | ∃ i ∈ before, a.index ∈ i}
  no_blocks : ∀ ref, .ipBlock ref ∉ acc.peer_set
  others : ∀ k, .other k ∈ acc.peer_set ↔
    ∃ j, self.ordered_peer_list[j]? = some k ∧ ∃ i ∈ before, self.Reached i j

/-- The first index of each family. -/
def firstIndex : IpVersion → Int
  | .v4 => min_ipv4_index
  | .v6 => min_ipv6_index

theorem index_eq (a : IPNetworkAddress) : a.index = firstIndex a.version + a.address := by
  unfold IPNetworkAddress.index firstIndex
  cases a.version with
  | v4 => rfl
  | v6 => rfl

theorem index_le_ipv6 (a : IPNetworkAddress) : a.index ≤ max_ipv6_index := by
  have top : max_ipv6_index = 4294967300 + 340282366920938463463374607431768211455 := by decide
  cases version : a.version with
  | v4 =>
    have four := IPNetworkAddress.index_v4 version
    omega
  | v6 =>
    have six := IPNetworkAddress.index_v6 version
    omega

theorem ipAddress_spec {version : IpVersion} {n : Int} (low : firstIndex version ≤ n)
    (high : n < firstIndex version + 2 ^ version.width) :
    Returns (ipAddress version (n - firstIndex version)) fun a => a.version = version ∧ a.index = n := by
  unfold ipAddress
  have range : 0 ≤ n - firstIndex version ∧ (n - firstIndex version).toNat < 2 ^ version.width := by
    apply And.intro (by omega)
    have cast : ((2 ^ version.width : Nat) : Int) = 2 ^ version.width := by norm_cast
    omega
  rw [dif_pos range]
  refine returns_pure ⟨rfl, ?_⟩
  rw [index_eq]
  show firstIndex version + ((n - firstIndex version).toNat : Int) = n
  omega

/-- Adding an interval of indices of one family to a block. -/
theorem addRange_spec (version : IpVersion) {block : IpBlock} {A : Set IPNetworkAddress}
    (proper : i.Proper) (holds : Holds block A) (low : firstIndex version ≤ i.start)
    (high : i.end_ < firstIndex version + 2 ^ version.width) :
    Returns (do
      let start ← ipAddress version (i.start - firstIndex version)
      let end_ ← ipAddress version (i.end_ - firstIndex version)
      block.addInterval ⟨start, end_⟩) (Holds · (A ∪ {a | a.index ∈ i})) := by
  unfold Interval.Proper at proper
  apply returns_bind (ipAddress_spec low (by omega))
  intro start ⟨first, startIndex⟩
  apply returns_bind (ipAddress_spec (by omega) high)
  intro end_ ⟨last, endIndex⟩
  have order : start ≤ end_ := place_le.mp (show start.index ≤ end_.index by omega)
  have solid : (IntervalOf.mk start end_).Solid :=
    (IPNetworkAddress.solid_iff order).mpr (first.trans last.symm)
  have same : {a | a ∈ IntervalOf.mk start end_} = {a : IPNetworkAddress | a.index ∈ i} := by
    ext a
    show a ∈ IntervalOf.mk start end_ ↔ a.index ∈ i
    rw [← IntervalOf.mem_places]
    show start.index ≤ a.index ∧ a.index ≤ end_.index ↔ _
    rw [startIndex, endIndex]
    rfl
  rw [← same]
  exact holds_addInterval holds order solid

/-- The inner loop reads peers that exist. -/
theorem addListed_spec {inds : List Int} {peer_set : List (PeerRef K)}
    (exist : ∀ ind ∈ inds, 0 ≤ ind ∧ ind < self.ordered_peer_list.length) :
    Returns (inds.foldlM (fun peer_set ind => do
      pure (heap.setAdd peer_set (.other (← item self.ordered_peer_list ind)))) peer_set) fun peers =>
      (∀ ref, .ipBlock ref ∈ peers → .ipBlock ref ∈ peer_set) ∧
      ∀ k, .other k ∈ peers ↔ .other k ∈ peer_set ∨
        ∃ j : Nat, self.ordered_peer_list[j]? = some k ∧ (j : Int) ∈ inds := by
  induction inds generalizing peer_set with
  | nil =>
    refine returns_pure ⟨fun _ => id, fun k => ?_⟩
    simp
  | cons ind rest ih =>
    obtain ⟨⟨low, high⟩, others⟩ := List.forall_mem_cons.mp exist
    obtain ⟨j, rfl⟩ := Int.eq_ofNat_of_zero_le low
    obtain ⟨peer, found⟩ : ∃ peer, self.ordered_peer_list[j]? = some peer :=
      ⟨_, List.getElem?_eq_getElem (Int.ofNat_lt.mp high)⟩
    have new : ∀ k, .other k ∈ heap.setAdd peer_set (.other peer) ↔ .other k ∈ peer_set ∨ k = peer := by
      intro k
      have view := Set.ext_iff.mp (congrArg PeersView.others (@viewOf_setAdd K _ heap peer_set (.other peer))) k
      refine Iff.trans view (or_congr_right ?_)
      show .other k ∈ [PeerRef.other peer] ↔ k = peer
      rw [List.mem_singleton, PeerRef.other.injEq]
    rw [List.foldlM_cons, item_found found, ok_bind]
    apply returns_mono (ih others)
    intro peers ⟨kept, members⟩
    constructor
    · intro ref member
      rcases mem_setAdd (kept ref member) with before | no
      · exact before
      · cases no
    · intro k
      rw [members, new, or_assoc]
      apply or_congr_right
      constructor
      · intro either
        rcases either with rfl | ⟨j', there, listed⟩
        · exact ⟨j, found, List.mem_cons_self⟩
        · exact ⟨j', there, List.mem_cons_of_mem _ listed⟩
      · intro ⟨j', there, listed⟩
        rcases List.mem_cons.mp listed with same | later
        · obtain rfl : j' = j := by omega
          rw [found] at there
          exact Or.inl (Option.some.inj there).symm
        · exact Or.inr ⟨j', there, later⟩

omit [DecidableEq K] in
theorem not_reached (outside : i.start < min_pod_index) {j : Nat} : ¬ self.Reached i j := by
  intro ⟨pod, _⟩
  omega

omit [DecidableEq K] in
/-- What a step keeps of the other peers where the interval is one of addresses. -/
theorem others_append {k : K} {before : List Interval} (outside : i.start < min_pod_index) :
    (∃ j, self.ordered_peer_list[j]? = some k ∧ ∃ i' ∈ before ++ [i], self.Reached i' j) ↔
      ∃ j, self.ordered_peer_list[j]? = some k ∧ ∃ i' ∈ before, self.Reached i' j := by
  simp only [List.mem_append, List.mem_singleton, or_and_right, exists_or, exists_eq_left,
    not_reached outside, or_false]

theorem addresses_append {before : List Interval} {A B : Set IPNetworkAddress}
    (same : A ∪ B = {a | ∃ i ∈ before, a.index ∈ i}) :
    A ∪ {a | a.index ∈ i} ∪ B = {a | ∃ i' ∈ before ++ [i], a.index ∈ i'} := by
  rw [Set.union_right_comm, same]
  ext a
  show (_ ∨ _) ↔ _
  simp

theorem addIndices_spec {acc : Decoding K} {before : List Interval} (decoded : self.Decoded acc before)
    (proper : i.Proper) (range : InOneRange i)
    (some : min_pod_index ≤ i.start → 0 < self.ordered_peer_list.length) :
    Returns (self.addIndices heap acc i) (self.Decoded · (before ++ [i])) := by
  obtain ⟨⟨A, B, four, six, same⟩, no_blocks, others⟩ := decoded
  have order : i.start ≤ i.end_ := proper
  unfold addIndices
  rcases range with ⟨low, high⟩ | ⟨low, high⟩ | ⟨low, high⟩
  · have outside : i.start < min_pod_index := Int.lt_of_le_of_lt (Int.le_trans order high) (by decide)
    have top : i.end_ < firstIndex .v4 + 2 ^ IpVersion.v4.width :=
      Int.lt_of_le_of_lt high (by decide)
    obtain ⟨block, run, holds⟩ := addRange_spec .v4 proper four low top
    obtain ⟨start, first, run⟩ := bind_ok.mp run
    obtain ⟨end_, last, run⟩ := bind_ok.mp run
    rw [if_pos high]
    show Returns (ipAddress .v4 (i.start - firstIndex .v4) >>= fun start =>
      ipAddress .v4 (i.end_ - firstIndex .v4) >>= fun end_ =>
        acc.ipv4block.addInterval ⟨start, end_⟩ >>= _) _
    rw [first, ok_bind, last, ok_bind, run, ok_bind]
    exact returns_pure ⟨⟨_, B, holds, six, addresses_append same⟩, no_blocks,
      fun k => (others k).trans (others_append outside).symm⟩
  · have outside : i.start < min_pod_index := Int.lt_of_le_of_lt (Int.le_trans order high) (by decide)
    have top : i.end_ < firstIndex .v6 + 2 ^ IpVersion.v6.width :=
      Int.lt_of_le_of_lt high (by decide)
    have later : ¬ i.end_ ≤ max_ipv4_index := by
      have apart : max_ipv4_index < min_ipv6_index := by decide
      omega
    obtain ⟨block, run, holds⟩ := addRange_spec .v6 proper six low top
    obtain ⟨start, first, run⟩ := bind_ok.mp run
    obtain ⟨end_, last, run⟩ := bind_ok.mp run
    rw [if_neg later, if_pos high]
    show Returns (ipAddress .v6 (i.start - firstIndex .v6) >>= fun start =>
      ipAddress .v6 (i.end_ - firstIndex .v6) >>= fun end_ =>
        acc.ipv6block.addInterval ⟨start, end_⟩ >>= _) _
    rw [first, ok_bind, last, ok_bind, run, ok_bind]
    have both : A ∪ (B ∪ {a | a.index ∈ i}) = {a | ∃ i' ∈ before ++ [i], a.index ∈ i'} := by
      rw [← Set.union_assoc, Set.union_right_comm]
      exact addresses_append same
    exact returns_pure ⟨⟨A, _, four, holds, both⟩, no_blocks,
      fun k => (others k).trans (others_append outside).symm⟩
  · have positive := some low
    have later : ¬ i.end_ ≤ max_ipv4_index := by
      have apart : max_ipv4_index < min_pod_index := by decide
      omega
    have later' : ¬ i.end_ ≤ max_ipv6_index := by
      have apart : max_ipv6_index < min_pod_index := by decide
      omega
    rw [if_neg later, if_neg later', assert_bind high]
    apply returns_bind (addListed_spec _)
    · intro peers ⟨kept, members⟩
      refine returns_pure ⟨⟨A, B, four, six, ?_⟩, fun ref member => no_blocks ref (kept ref member), ?_⟩
      · rw [same]
        ext a
        have none : a.index ∉ i := by
          intro inside
          have inside : i.start ≤ a.index := inside.1
          have top := index_le_ipv6 a
          have apart : max_ipv6_index < min_pod_index := by decide
          omega
        show (∃ i ∈ before, a.index ∈ i) ↔ ∃ i' ∈ before ++ [i], a.index ∈ i'
        simp [none]
      · intro k
        rw [members, others]
        simp only [List.mem_append, List.mem_singleton, or_and_right, exists_or, exists_eq_left, and_or_left]
        apply or_congr_right
        apply exists_congr
        intro j
        apply and_congr_right
        intro _
        rw [mem_range]
        unfold Reached
        omega
    · intro ind listed
      obtain ⟨above, below⟩ := mem_range.mp listed
      omega

theorem decode_spec {intervals : List Interval} (proper : ∀ i ∈ intervals, i.Proper)
    (ranges : ∀ i ∈ intervals, InOneRange i)
    (some : ∀ i ∈ intervals, min_pod_index ≤ i.start → 0 < self.ordered_peer_list.length) :
    Returns (intervals.foldlM (self.addIndices heap) {}) (self.Decoded · intervals) := by
  apply returns_foldlM (fun before acc => self.Decoded acc before)
  · refine ⟨⟨∅, ∅, holds_empty, holds_empty, ?_⟩, nofun, fun k => ?_⟩
    · rw [Set.union_empty]
      symm
      apply Set.eq_empty_of_forall_notMem
      intro a ⟨_, no, _⟩
      cases no
    · apply iff_of_false nofun
      intro ⟨_, _, _, no, _⟩
      cases no
  · intro before i after acc whole decoded
    have listed : i ∈ intervals := by
      rw [whole]
      exact List.mem_append_right before List.mem_cons_self
    exact addIndices_spec decoded (proper i listed) (ranges i listed) (some i listed)

theorem addBlock_spec (valid : heap.Valid) {peer_set : List (PeerRef K)} (refers : heap.Refers peer_set)
    {block : IpBlock} {A : Set IPNetworkAddress} (holds : Holds block A) :
    PeerSetRef.Added heap (heap.viewOf peer_set ∪ ⟨∅, A⟩) (addBlock heap peer_set block) := by
  unfold addBlock
  split
  · exact PeerSetRef.addNewBlock_spec valid refers holds
  · rename_i empty
    have none : block.interval_set = [] := by simpa [CanonicalIntervalSetOf.bool] using empty
    have no_address : A = ∅ := by
      rw [← Set.ext fun a => holds_mem holds]
      apply Set.eq_empty_of_forall_notMem
      rintro a ⟨i, listed, _⟩
      rw [none] at listed
      cases listed
    refine ⟨valid, extends_refl heap, refers, ?_⟩
    rw [no_address]
    exact PeersView.ext (Set.union_empty _).symm (Set.union_empty _).symm

/-- What the loop reads for all intervals. -/
def reachedView (self : RegisteredPeers K) (I : CanonicalIntervalSet) : PeersView K :=
  ⟨{k | ∃ j, self.ordered_peer_list[j]? = some k ∧ ∃ i ∈ I.interval_set, self.Reached i j},
    {a | a.index ∈ I}⟩

theorem getPeerSetByIndices_spec (valid : heap.Valid) {I : CanonicalIntervalSet} (canonical : I.Canonical)
    (ranges : ∀ i ∈ I.interval_set, InOneRange i)
    (some : ∀ i ∈ I.interval_set, min_pod_index ≤ i.start → 0 < self.ordered_peer_list.length) :
    Returns (self.getPeerSetByIndices heap I) (Made heap (self.reachedView I)) := by
  unfold getPeerSetByIndices
  apply returns_bind (decode_spec canonical.proper ranges some)
  intro acc ⟨⟨A, B, four, six, same⟩, no_blocks, others⟩
  have refers : heap.Refers acc.peer_set := fun ref member => absurd member (no_blocks ref)
  have first := addBlock_spec valid refers four
  generalize addBlock heap acc.peer_set acc.ipv4block = added at first
  obtain ⟨peers₁, heap₁⟩ := added
  have second := addBlock_spec first.valid first.refers six
  dsimp only at second ⊢
  generalize addBlock heap₁ peers₁ acc.ipv6block = added at second
  obtain ⟨peers₂, heap₂⟩ := added
  apply returns_pure
  refine ⟨newSet_valid second.valid second.refers, ?_, peers₂, List.getElem?_concat_length, ?_⟩
  · exact (first.unchanged.trans second.unchanged).trans (newSet_extends peers₂)
  · show heap₂.viewOf peers₂ = _
    rw [second.view, first.view]
    apply PeersView.ext
    · show {k | .other k ∈ acc.peer_set} ∪ ∅ ∪ ∅ = _
      rw [Set.union_empty, Set.union_empty]
      exact Set.ext others
    · show {a | heap.Covered acc.peer_set a} ∪ A ∪ B = {a | a.index ∈ I}
      have none : {a | heap.Covered acc.peer_set a} = ∅ :=
        Set.eq_empty_of_forall_notMem fun a ⟨ref, _, member, _⟩ => no_blocks ref member
      rw [none, Set.empty_union, same]
      rfl

/-- The registered peers and the addresses whose index is in the set. -/
def viewAt (self : RegisteredPeers K) (I : CanonicalIntervalSet) : PeersView K :=
  ⟨{k | ∃ j : Nat, self.ordered_peer_list[j]? = some k ∧ min_pod_index + j ∈ I}, {a | a.index ∈ I}⟩

/-- An interval of other peers starts at a registered one, or the last registered peer is among those
that are meant. -/
def StartsRegistered (self : RegisteredPeers K) (I : CanonicalIntervalSet) : Prop :=
  ∀ i ∈ I.interval_set, min_pod_index ≤ i.start →
    i.start < min_pod_index + self.ordered_peer_list.length ∨
      (0 < self.ordered_peer_list.length ∧
        min_pod_index + ((self.ordered_peer_list.length : Int) - 1) ∈ I)

variable {I : CanonicalIntervalSet}

omit [DecidableEq K] in
/-- Where there are registered peers, the loop reads the right ones just in this case. -/
theorem reachedView_eq (nodup : self.ordered_peer_list.Nodup) (proper : ∀ i ∈ I.interval_set, i.Proper)
    (ranges : ∀ i ∈ I.interval_set, InOneRange i)
    (some : ∀ i ∈ I.interval_set, min_pod_index ≤ i.start → 0 < self.ordered_peer_list.length) :
    self.reachedView I = self.viewAt I ↔ self.StartsRegistered I := by
  constructor
  · intro same i listed pod
    have positive := some i listed pod
    have order : i.start ≤ i.end_ := proper i listed
    by_cases start : i.start < min_pod_index + self.ordered_peer_list.length
    · exact Or.inl start
    · have last : self.ordered_peer_list.length - 1 < self.ordered_peer_list.length := by omega
      have found := List.getElem?_eq_getElem last
      have reached : self.Reached i (self.ordered_peer_list.length - 1) := by
        unfold Reached
        omega
      have member : self.ordered_peer_list[self.ordered_peer_list.length - 1] ∈ (self.reachedView I).others :=
        ⟨_, found, i, listed, reached⟩
      rw [same] at member
      obtain ⟨j, there, inside⟩ := member
      obtain ⟨here, _⟩ := List.getElem?_eq_some_iff.mp there
      have twice : j = self.ordered_peer_list.length - 1 := 
        (List.getElem?_inj here nodup).mp (there.trans found.symm)
      have cast : (j : Int) = (self.ordered_peer_list.length : Int) - 1 := by omega
      rw [cast] at inside
      exact Or.inr ⟨positive, inside⟩
  · intro starts
    apply PeersView.ext
    · ext k
      apply exists_congr
      intro j
      apply and_congr_right
      intro found
      obtain ⟨here, _⟩ := List.getElem?_eq_some_iff.mp found
      constructor
      · intro ⟨i, listed, pod, low, high⟩
        have order : i.start ≤ i.end_ := proper i listed
        rcases starts i listed pod with start | ⟨_, last⟩
        · refine ⟨i, listed, ?_, ?_⟩
          · omega
          · omega
        · by_cases start : i.start < min_pod_index + self.ordered_peer_list.length
          · refine ⟨i, listed, ?_, ?_⟩
            · omega
            · omega
          · have cast : (j : Int) = (self.ordered_peer_list.length : Int) - 1 := by omega
            rwa [← cast] at last
      · intro ⟨i, listed, low, high⟩
        refine ⟨i, listed, ?_⟩
        have apart : max_ipv4_index < min_pod_index := by decide
        have apart' : max_ipv6_index < min_pod_index := by decide
        have pod : min_pod_index ≤ i.start := by
          rcases ranges i listed with range | range | range
          · omega
          · omega
          · exact range.1
        unfold Reached
        omega
    · rfl

/-- A loop that ends has read a peer for every interval of other peers. -/
theorem decode_some {intervals : List Interval} (proper : ∀ i ∈ intervals, i.Proper) {acc : Decoding K}
    (run : intervals.foldlM (self.addIndices heap) {} = .ok acc) :
    ∀ i ∈ intervals, min_pod_index ≤ i.start → 0 < self.ordered_peer_list.length := by
  have each : ∀ i ∈ intervals, i.Proper → min_pod_index ≤ i.start → 0 < self.ordered_peer_list.length := by
    apply foldlM_ok (fun before _ => ∀ i ∈ before, i.Proper → min_pod_index ≤ i.start →
      0 < self.ordered_peer_list.length) (List.forall_mem_nil _) _ run
    intro before i acc next all added
    apply List.forall_mem_append.mpr ⟨all, List.forall_mem_singleton.mpr _⟩
    intro proper pod
    have order : i.start ≤ i.end_ := proper
    by_contra none
    have empty : self.ordered_peer_list = [] := List.length_eq_zero_iff.mp (by omega)
    have later : ¬ i.end_ ≤ max_ipv4_index := by
      have apart : max_ipv4_index < min_pod_index := by decide
      omega
    have later' : ¬ i.end_ ≤ max_ipv6_index := by
      have apart : max_ipv6_index < min_pod_index := by decide
      omega
    unfold addIndices at added
    rw [if_neg later, if_neg later'] at added
    obtain ⟨_, _, added⟩ := bind_ok.mp added
    obtain ⟨peers, read, _⟩ := bind_ok.mp added
    have first : min (i.start - min_pod_index) (((self.ordered_peer_list.length : Nat) : Int) - 1) = -1 := by omega
    have last : min (i.end_ - min_pod_index) (((self.ordered_peer_list.length : Nat) : Int) - 1) = -1 := by omega
    rw [first, last, empty] at read
    cases read
  exact fun i listed => each i listed (proper i listed)

omit [DecidableEq K] in
theorem covers_unique {heap : Objects K} {set : Nat} {S T : PeersView K} (left : heap.Covers set S)
    (right : heap.Covers set T) : S = T := by
  obtain ⟨peers, found, rfl⟩ := left
  obtain ⟨peers', found', rfl⟩ := right
  rw [found] at found'
  rw [Option.some.inj found']

theorem decode_exact (nodup : self.ordered_peer_list.Nodup) (valid : heap.Valid) (canonical : I.Canonical)
    (ranges : ∀ i ∈ I.interval_set, InOneRange i) :
    Returns (self.getPeerSetByIndices heap I) (Made heap (self.viewAt I)) ↔ self.StartsRegistered I := by
  constructor
  · intro ⟨result, run, made⟩
    obtain ⟨acc, decoded, _⟩ := bind_ok.mp run
    have some := decode_some canonical.proper decoded
    obtain ⟨result', run', made'⟩ := getPeerSetByIndices_spec valid canonical ranges some
    obtain rfl : result = result' := Except.ok.inj (run.symm.trans run')
    exact (reachedView_eq nodup canonical.proper ranges some).mp (covers_unique made'.covers made.covers)
  · intro starts
    have some : ∀ i ∈ I.interval_set, min_pod_index ≤ i.start → 0 < self.ordered_peer_list.length := by
      intro i listed pod
      rcases starts i listed pod with start | ⟨positive, _⟩
      · omega
      · exact positive
    rw [← (reachedView_eq nodup canonical.proper ranges some).mpr starts]
    exact getPeerSetByIndices_spec valid canonical ranges some

section RoundTrip

variable {S : PeersView K}

/-- An index that some registered peer or address has. -/
def IsIndex (self : RegisteredPeers K) (n : Int) : Prop :=
  (min_ipv4_index ≤ n ∧ n ≤ max_ipv4_index) ∨ (min_ipv6_index ≤ n ∧ n ≤ max_ipv6_index) ∨
  (min_pod_index ≤ n ∧ n < min_pod_index + self.ordered_peer_list.length)

omit [DecidableEq K] in
theorem isIndex_of_mem {n : Int} (member : n ∈ self.indicesOf S) : self.IsIndex n := by
  rcases member with ⟨peer, _, i, found, rfl⟩ | ⟨a, _, rfl⟩
  · obtain ⟨here, _⟩ := List.getElem?_eq_some_iff.mp found
    unfold IsIndex
    omega
  · have ends : min_ipv4_index = 0 ∧ max_ipv4_index = 4294967295 ∧ min_ipv6_index = 4294967300 ∧
        max_ipv6_index = 4294967300 + 340282366920938463463374607431768211455 := by decide
    cases version : a.version with
    | v4 =>
      have four := IPNetworkAddress.index_v4 version
      exact Or.inl (by omega)
    | v6 =>
      have six := IPNetworkAddress.index_v6 version
      exact Or.inr (Or.inl (by omega))

omit [DecidableEq K] in
/-- An interval of indices does not reach over the gaps between the ranges. -/
theorem inOneRange_of_indices (bounded : (self.ordered_peer_list.length : Int) ≤ max_num_of_pods)
    (proper : i.Proper) (indices : ∀ n ∈ i, self.IsIndex n) :
    InOneRange i ∧ (min_pod_index ≤ i.start → i.start < min_pod_index + self.ordered_peer_list.length) := by
  have order : i.start ≤ i.end_ := proper
  have first := indices i.start ⟨Int.le_refl _, order⟩
  have last := indices i.end_ ⟨order, Int.le_refl _⟩
  have ends : min_ipv6_index = max_ipv4_index + 5 ∧ min_pod_index = max_ipv6_index + 5 ∧
      max_ipv4_index < max_ipv6_index ∧ max_pod_index = min_pod_index + max_num_of_pods - 1 := by decide
  have gap : ∀ n, i.start ≤ n → n ≤ i.end_ → n ≠ max_ipv4_index + 1 ∧ n ≠ max_ipv6_index + 1 := by
    intro n low high
    have index := indices n ⟨low, high⟩
    unfold IsIndex at index
    omega
  have four := gap (max_ipv4_index + 1)
  have six := gap (max_ipv6_index + 1)
  unfold IsIndex at first last
  unfold InOneRange
  omega

omit [DecidableEq K] in
theorem viewAt_indices
    (registered : ∀ k ∈ S.others, k ∈ self.ordered_peer_list)
    (members : {n | n ∈ I} = self.indicesOf S) : self.viewAt I = S := by
  have apart : max_ipv6_index < min_pod_index := by decide
  have members : ∀ n, n ∈ I ↔ n ∈ self.indicesOf S := Set.ext_iff.mp members
  apply PeersView.ext
  · ext k
    constructor
    · intro ⟨j, found, inside⟩
      rcases (members _).mp inside with ⟨peer, member, i, found', same⟩ | ⟨a, _, same⟩
      · obtain rfl : j = i := by omega
        rw [found] at found'
        rw [Option.some.inj found']
        exact member
      · have top := index_le_ipv6 a
        omega
    · intro member
      obtain ⟨j, found⟩ := List.mem_iff_getElem?.mp (registered k member)
      exact ⟨j, found, (members _).mpr (Or.inl ⟨k, member, j, found, rfl⟩)⟩
  · ext a
    constructor
    · intro inside
      rcases (members _).mp inside with ⟨peer, _, i, _, same⟩ | ⟨b, member, same⟩
      · have top := index_le_ipv6 a
        omega
      · rwa [← IPNetworkAddress.index_inj same]
    · exact fun member => (members _).mpr (Or.inr ⟨a, member, rfl⟩)

/-- What becomes of a peer set that is translated to indices and back, and compared with itself. -/
def roundTrip (self : RegisteredPeers K) (heap : Objects K) (peer_set : Nat) : Except Failure Bool := do
  let indices ← self.getPeerIntervalOf heap peer_set
  let (res, heap) ← self.getPeerSetByIndices heap indices
  let (answer, _) ← PeerSetRef.eq heap res peer_set
  pure answer

theorem roundTrip_spec (indexed : Indexed self) (valid : heap.Valid) {peer_set : Nat}
    (covers : heap.Covers peer_set S) (registered : ∀ k ∈ S.others, k ∈ self.ordered_peer_list) :
    Returns (self.roundTrip heap peer_set) (· = true) := by
  apply returns_bind (getPeerIntervalOf_exact indexed valid covers registered)
  intro I ⟨canonical, members⟩
  have indices : ∀ i ∈ I.interval_set, ∀ n ∈ i, self.IsIndex n := by
    intro i listed n inside
    have member : n ∈ {n | n ∈ I} := ⟨i, listed, inside⟩
    rw [members] at member
    exact isIndex_of_mem member
  have each : ∀ i ∈ I.interval_set, InOneRange i ∧ _ := fun i listed =>
    inOneRange_of_indices indexed.bounded (canonical.proper i listed) (indices i listed)
  have decoded := (@decode_exact K _ self heap I indexed.nodup valid canonical
    fun i listed => (each i listed).1).mpr
    fun i listed pod => Or.inl ((each i listed).2 pod)
  rw [viewAt_indices registered members] at decoded
  apply returns_bind decoded
  intro ⟨res, heap'⟩ made
  apply returns_bind (PeerSetRef.eq_spec made.valid made.covers (covers_mono valid made.unchanged covers))
  intro ⟨answer, _⟩ ⟨_, same⟩
  exact returns_pure (same.mpr rfl)

end RoundTrip

/-- A peer set comes back from its indices, and a set of indices gives the peers and the addresses
that have them just if its intervals of other peers start at registered ones. -/
theorem indices_exact (reachable : Reachable self) (valid : heap.Valid) :
    (∀ peer_set S, heap.Covers peer_set S → (∀ k ∈ S.others, k ∈ self.ordered_peer_list) →
      Returns (self.roundTrip heap peer_set) (· = true)) ∧
    ∀ I : CanonicalIntervalSet, I.Canonical → (∀ i ∈ I.interval_set, InOneRange i) →
      (Returns (self.getPeerSetByIndices heap I) (Made heap (self.viewAt I)) ↔ self.StartsRegistered I) := by
  have indexed := reachable_indexed reachable
  exact ⟨fun _ _ covers registered => roundTrip_spec indexed valid covers registered,
    fun _ canonical ranges => decode_exact indexed.nodup valid canonical ranges⟩

section OnePeer

/-- One registered peer, and the indices of the two after it. -/
def onePeer : RegisteredPeers String := ⟨["default/a"], [("default/a", 0)]⟩

def afterOnePeer : CanonicalIntervalSet := ⟨[⟨min_pod_index + 1, min_pod_index + 2⟩]⟩

theorem onePeer_indices : (∀ peer_set S, ({} : Objects String).Covers peer_set S →
      (∀ k ∈ S.others, k ∈ onePeer.ordered_peer_list) →
      Returns (onePeer.roundTrip {} peer_set) (· = true)) ∧
    ∀ I : CanonicalIntervalSet, I.Canonical → (∀ i ∈ I.interval_set, InOneRange i) →
      (Returns (onePeer.getPeerSetByIndices {} I) (Made {} (onePeer.viewAt I)) ↔ onePeer.StartsRegistered I) :=
  indices_exact ⟨[.other "default/a"], rfl⟩ valid_empty

/-- The registered peer comes back, although its index is not in the set. -/
theorem afterOnePeer_wrong : Reachable onePeer ∧ afterOnePeer.Canonical ∧
    (∀ i ∈ afterOnePeer.interval_set, InOneRange i) ∧
    ¬ Returns (onePeer.getPeerSetByIndices {} afterOnePeer) (Made {} (onePeer.viewAt afterOnePeer)) := by
  refine ⟨⟨[.other "default/a"], rfl⟩, CanonicalIntervalSet.canonical_singleton
    (show min_pod_index + 1 ≤ min_pod_index + 2 by decide), ?_, ?_⟩
  · exact List.forall_mem_singleton.mpr (Or.inr (Or.inr (by decide)))
  · intro ⟨result, run, made⟩
    obtain rfl : (0, { sets := [[.other "default/a"]] }) = result := Except.ok.inj run
    obtain ⟨peers, found, view⟩ := made.covers
    obtain rfl : [PeerRef.other "default/a"] = peers := Option.some.inj found
    have member : "default/a" ∈ (onePeer.viewAt afterOnePeer).others := by
      rw [← view]
      exact List.mem_singleton_self _
    obtain ⟨j, there, i, listed, low, _⟩ := member
    obtain rfl := List.mem_singleton.mp listed
    obtain ⟨here, _⟩ := List.getElem?_eq_some_iff.mp there
    have here : j < 1 := here
    have low : min_pod_index + 1 ≤ min_pod_index + j := low
    omega

end OnePeer

end RegisteredPeers
end Nca.CoreDS
