import Nca.CoreDS.PeerObjects

/-!
What the operations on peer sets compute: the union, the intersection and the difference of the
peers that are no IP blocks, and of the addresses that the blocks cover.
-/

namespace Nca.CoreDS
open Lib Python CanonicalIntervalSetOf

/-- What a peer set stands for. -/
@[ext]
structure PeersView (K : Type) where
  others : Set K
  addresses : Set IPNetworkAddress

namespace PeersView

variable {K : Type}

instance : Union (PeersView K) := ⟨fun S T => ⟨S.others ∪ T.others, S.addresses ∪ T.addresses⟩⟩

instance : Inter (PeersView K) := ⟨fun S T => ⟨S.others ∩ T.others, S.addresses ∩ T.addresses⟩⟩

instance : SDiff (PeersView K) := ⟨fun S T => ⟨S.others \ T.others, S.addresses \ T.addresses⟩⟩

end PeersView

namespace Objects

variable {K : Type} [DecidableEq K] {heap heap' heap'' : Objects K} {S T : PeersView K}
  {peers more : List (PeerRef K)} {peer : PeerRef K}

/-- Every object of the first heap is in the second as it was. -/
structure Extends (heap heap' : Objects K) : Prop where
  blocks : heap.blocks <+: heap'.blocks
  sets : heap.sets <+: heap'.sets

/-- The peers of a set refer to blocks that exist. -/
def Refers (heap : Objects K) (peers : List (PeerRef K)) : Prop :=
  ∀ ref, .ipBlock ref ∈ peers → ref < heap.blocks.length

structure Valid (heap : Objects K) : Prop where
  blocks : ∀ block ∈ heap.blocks, block.WellFormed
  sets : ∀ peers ∈ heap.sets, heap.Refers peers

/-- The address is covered by a block among the peers. -/
def Covered (heap : Objects K) (peers : List (PeerRef K)) (a : IPNetworkAddress) : Prop :=
  ∃ ref block, .ipBlock ref ∈ peers ∧ heap.blocks[ref]? = some block ∧ a ∈ block

/-- What a list of peers stands for. -/
def viewOf (heap : Objects K) (peers : List (PeerRef K)) : PeersView K :=
  ⟨{k | .other k ∈ peers}, {a | heap.Covered peers a}⟩

/-- The set exists, and it stands for `S`. -/
def Covers (heap : Objects K) (set : Nat) (S : PeersView K) : Prop :=
  ∃ peers, heap.sets[set]? = some peers ∧ heap.viewOf peers = S

omit [DecidableEq K] in
theorem valid_empty : ({} : Objects K).Valid := ⟨List.forall_mem_nil _, List.forall_mem_nil _⟩

omit [DecidableEq K] in
theorem extends_refl (heap : Objects K) : heap.Extends heap := ⟨List.prefix_rfl, List.prefix_rfl⟩

omit [DecidableEq K] in
theorem Extends.trans (first : heap.Extends heap') (second : heap'.Extends heap'') :
    heap.Extends heap'' :=
  ⟨first.blocks.trans second.blocks, first.sets.trans second.sets⟩

omit [DecidableEq K] in
theorem newBlock_extends (block : IpBlock) : heap.Extends (heap.newBlock block).2 :=
  ⟨List.prefix_append _ _, List.prefix_rfl⟩

omit [DecidableEq K] in
theorem newSet_extends (peers : List (PeerRef K)) : heap.Extends (heap.newSet peers).2 :=
  ⟨List.prefix_rfl, List.prefix_append _ _⟩

omit [DecidableEq K] in
theorem Extends.block (extends_ : heap.Extends heap') {ref : Nat} (here : ref < heap.blocks.length) :
    heap'.blocks[ref]? = heap.blocks[ref]? := by
  obtain ⟨more, same⟩ := extends_.blocks
  rw [← same, List.getElem?_append_left here]

omit [DecidableEq K] in
theorem Extends.set (extends_ : heap.Extends heap') {set : Nat} {peers : List (PeerRef K)}
    (found : heap.sets[set]? = some peers) : heap'.sets[set]? = some peers := by
  obtain ⟨more, same⟩ := extends_.sets
  obtain ⟨here, _⟩ := List.getElem?_eq_some_iff.mp found
  rw [← same, List.getElem?_append_left here, found]

omit [DecidableEq K] in
theorem refers_mono (extends_ : heap.Extends heap') (refers : heap.Refers peers) : heap'.Refers peers := by
  intro ref member
  have longer := extends_.blocks.length_le
  have here := refers ref member
  omega

omit [DecidableEq K] in
theorem viewOf_extends (extends_ : heap.Extends heap') (refers : heap.Refers peers) :
    heap'.viewOf peers = heap.viewOf peers := by
  unfold viewOf
  congr 1
  ext a
  constructor
  · intro ⟨ref, block, member, found, inside⟩
    rw [extends_.block (refers ref member)] at found
    exact ⟨ref, block, member, found, inside⟩
  · intro ⟨ref, block, member, found, inside⟩
    rw [← extends_.block (refers ref member)] at found
    exact ⟨ref, block, member, found, inside⟩

omit [DecidableEq K] in
theorem Valid.refers (valid : heap.Valid) {set : Nat} (found : heap.sets[set]? = some peers) :
    heap.Refers peers := valid.sets peers (List.mem_of_getElem? found)

omit [DecidableEq K] in
theorem covers_mono (valid : heap.Valid) (extends_ : heap.Extends heap') {set : Nat}
    (covers : heap.Covers set S) : heap'.Covers set S := by
  obtain ⟨peers, found, view⟩ := covers
  exact ⟨peers, extends_.set found, (viewOf_extends extends_ (valid.refers found)).trans view⟩

omit [DecidableEq K] in
theorem newBlock_valid (valid : heap.Valid) {block : IpBlock} (wellFormed : block.WellFormed) :
    (heap.newBlock block).2.Valid := by
  constructor
  · exact List.forall_mem_append.mpr ⟨valid.blocks, List.forall_mem_singleton.mpr wellFormed⟩
  · exact fun peers member => refers_mono (newBlock_extends block) (valid.sets peers member)

omit [DecidableEq K] in
theorem newSet_valid (valid : heap.Valid) (refers : heap.Refers peers) :
    (heap.newSet peers).2.Valid := by
  constructor
  · exact valid.blocks
  · exact List.forall_mem_append.mpr ⟨valid.sets, List.forall_mem_singleton.mpr refers⟩

theorem eqPeer_iff {k : K} : (heap.eqPeer (.other k) peer) = true ↔ peer = .other k := by
  cases peer with
  | other k' => simp [eqPeer, eq_comm]
  | ipBlock ref => simp [eqPeer]

theorem mem_setAdd {x : PeerRef K} (member : x ∈ heap.setAdd peers peer) : x ∈ peers ∨ x = peer := by
  unfold setAdd at member
  split at member
  · exact Or.inl member
  · exact (List.mem_append.mp member).imp_right List.mem_singleton.mp

theorem setAdd_mono {x : PeerRef K} (member : x ∈ peers) : x ∈ heap.setAdd peers peer := by
  unfold setAdd
  split
  · exact member
  · exact List.mem_append_left _ member

theorem setAdd_new : ∃ x ∈ heap.setAdd peers peer, x = peer ∨ heap.eqPeer peer x = true := by
  unfold setAdd
  split
  · rename_i there
    obtain ⟨x, member, same⟩ := List.any_eq_true.mp there
    exact ⟨x, member, Or.inr same⟩
  · exact ⟨peer, List.mem_append_right _ (List.mem_singleton_self peer), Or.inl rfl⟩

omit [DecidableEq K] in
theorem viewOf_append : heap.viewOf (peers ++ more) = heap.viewOf peers ∪ heap.viewOf more := by
  apply PeersView.ext
  · ext k
    exact List.mem_append
  · ext a
    show heap.Covered (peers ++ more) a ↔ heap.Covered peers a ∨ heap.Covered more a
    unfold Covered
    simp only [List.mem_append, or_and_right, exists_or]

theorem viewOf_setAdd : heap.viewOf (heap.setAdd peers peer) = heap.viewOf peers ∪ heap.viewOf [peer] := by
  obtain ⟨x, member, same⟩ := @setAdd_new K _ heap peers peer
  apply PeersView.ext
  · ext k
    show .other k ∈ heap.setAdd peers peer ↔ .other k ∈ peers ∨ .other k ∈ [peer]
    rw [List.mem_singleton]
    constructor
    · exact mem_setAdd
    · intro either
      rcases either with before | rfl
      · exact setAdd_mono before
      · rcases same with rfl | same
        · exact member
        · rwa [eqPeer_iff.mp same] at member
  · ext a
    show heap.Covered (heap.setAdd peers peer) a ↔ heap.Covered peers a ∨ heap.Covered [peer] a
    constructor
    · intro ⟨ref, block, listed, found, inside⟩
      rcases mem_setAdd listed with before | rfl
      · exact Or.inl ⟨ref, block, before, found, inside⟩
      · exact Or.inr ⟨ref, block, List.mem_singleton_self _, found, inside⟩
    · intro either
      rcases either with ⟨ref, block, before, found, inside⟩ | ⟨ref, block, new, found, inside⟩
      · exact ⟨ref, block, setAdd_mono before, found, inside⟩
      · obtain rfl := List.mem_singleton.mp new
        rcases same with rfl | same
        · exact ⟨ref, block, member, found, inside⟩
        · cases x with
          | other k => cases same
          | ipBlock ref' =>
            have same : heap.blocks[ref]? = heap.blocks[ref']? := of_decide_eq_true same
            exact ⟨ref', block, member, same.symm.trans found, inside⟩

theorem viewOf_setUpdate :
    heap.viewOf (heap.setUpdate peers more) = heap.viewOf peers ∪ heap.viewOf more := by
  rw [← viewOf_append]
  induction more generalizing peers with
  | nil => exact congrArg heap.viewOf (List.append_nil peers).symm
  | cons peer rest ih =>
    show heap.viewOf (heap.setUpdate (heap.setAdd peers peer) rest) = _
    rw [ih, viewOf_append, viewOf_setAdd, ← viewOf_append, ← viewOf_append, List.append_assoc]
    rfl

theorem refers_setUpdate (refers : heap.Refers peers) (others : heap.Refers more) :
    heap.Refers (heap.setUpdate peers more) := by
  induction more generalizing peers with
  | nil => exact refers
  | cons peer rest ih =>
    apply ih
    · intro ref member
      rcases mem_setAdd member with before | rfl
      · exact refers ref before
      · exact others ref List.mem_cons_self
    · exact fun ref member => others ref (List.mem_cons_of_mem peer member)

/-- What a step that only makes new objects leaves: the objects as they were, and a new set. -/
structure Made (heap : Objects K) (S : PeersView K) (result : Nat × Objects K) : Prop where
  valid : result.2.Valid
  unchanged : heap.Extends result.2
  covers : result.2.Covers result.1 S

theorem made_newPeerSet (valid : heap.Valid) (refers : heap.Refers peers) :
    Made heap (heap.viewOf peers) (heap.newPeerSet peers) := by
  have refers' : heap.Refers (heap.setUpdate [] peers) := refers_setUpdate nofun refers
  refine ⟨newSet_valid valid refers', newSet_extends _, heap.setUpdate [] peers, ?_, ?_⟩
  · exact List.getElem?_concat_length
  · show heap.viewOf (heap.setUpdate [] peers) = _
    rw [viewOf_setUpdate, ← viewOf_append, List.nil_append]

end Objects

namespace PeerSetRef
open Objects

variable {K : Type} [DecidableEq K] {heap : Objects K} {S T : PeersView K} {elems : List (PeerRef K)}

/-- The objects with one block after all others. -/
def withBlock (heap : Objects K) (block : IpBlock) : Objects K :=
  { heap with blocks := heap.blocks ++ [block] }

omit [DecidableEq K] in
theorem withBlock_blocks {block : IpBlock} {ref : Nat} (here : ref < heap.blocks.length) :
    (withBlock heap block).blocks[ref]? = heap.blocks[ref]? :=
  List.getElem?_append_left here

omit [DecidableEq K] in
theorem withBlock_new {block : IpBlock} :
    (withBlock heap block).blocks[heap.blocks.length]? = some block :=
  List.getElem?_concat_length

omit [DecidableEq K] in
theorem iorBlock_spec {block elem : IpBlock} {ref : Nat} {A B : Set IPNetworkAddress}
    (found : heap.blocks[ref]? = some elem) (left : Holds block A) (right : Holds elem B) :
    Returns (iorBlock (withBlock heap block) heap.blocks.length ref) fun heap' =>
      ∃ union, heap' = withBlock heap union ∧ Holds union (A ∪ B) := by
  obtain ⟨here, _⟩ := List.getElem?_eq_some_iff.mp found
  obtain ⟨union, made, holds⟩ := holds_or left right
  unfold iorBlock
  rw [item_found withBlock_new, item_found ((withBlock_blocks here).trans found), ok_bind, ok_bind,
    made, ok_bind]
  refine returns_pure ⟨union, ?_, holds⟩
  unfold withBlock
  rw [List.set_append_right _ _ (Nat.le_refl _), Nat.sub_self]
  rfl

omit [DecidableEq K] in
theorem covered_one {ref : Nat} {block : IpBlock} (found : heap.blocks[ref]? = some block) :
    {a | heap.Covered [PeerRef.ipBlock ref] a} = {a | a ∈ block} := by
  ext a
  constructor
  · intro ⟨ref', block', member, found', inside⟩
    obtain rfl := PeerRef.ipBlock.inj (List.mem_singleton.mp member)
    rw [found] at found'
    obtain rfl := Option.some.inj found'
    exact inside
  · exact fun inside => ⟨ref, block, List.mem_singleton_self _, found, inside⟩

omit [DecidableEq K] in
theorem addBlocks_spec {block : IpBlock} {A : Set IPNetworkAddress} (valid : heap.Valid)
    (refers : heap.Refers elems) (holds : Holds block A) :
    Returns (addBlocks (withBlock heap block) heap.blocks.length elems) fun heap' =>
      ∃ union, heap' = withBlock heap union ∧ Holds union (A ∪ {a | heap.Covered elems a}) := by
  unfold addBlocks
  induction elems generalizing block A with
  | nil =>
    have none : {a | heap.Covered [] a} = ∅ := Set.eq_empty_of_forall_notMem fun a ⟨_, _, no, _⟩ => nomatch no
    rw [none, Set.union_empty]
    exact returns_pure ⟨block, rfl, holds⟩
  | cons elem rest ih =>
    have refers' : heap.Refers rest := fun ref member => refers ref (List.mem_cons_of_mem elem member)
    have split : {a | heap.Covered (elem :: rest) a} =
        {a | heap.Covered [elem] a} ∪ {a | heap.Covered rest a} :=
      congrArg PeersView.addresses (@viewOf_append K heap [elem] rest)
    rw [List.foldlM_cons, split, ← Set.union_assoc]
    cases elem with
    | other k =>
      have none : {a | heap.Covered [PeerRef.other k] a} = ∅ :=
        Set.eq_empty_of_forall_notMem fun a ⟨_, _, no, _⟩ => nomatch List.mem_singleton.mp no
      rw [none, Set.union_empty]
      exact ih refers' holds
    | ipBlock ref =>
      obtain ⟨elem, found⟩ : ∃ elem, heap.blocks[ref]? = some elem :=
        ⟨_, List.getElem?_eq_getElem (refers ref List.mem_cons_self)⟩
      have wellFormed := valid.blocks elem (List.mem_of_getElem? found)
      obtain ⟨_, added, union, rfl, holds'⟩ :=
        iorBlock_spec found holds (IpBlock.wellFormed_holds wellFormed)
      rw [covered_one found]
      show Returns (iorBlock (withBlock heap block) heap.blocks.length ref >>= _) _
      rw [added, ok_bind]
      exact ih refers' holds'

/-- What adding a block to the peers of a new set leaves. -/
structure Added (heap : Objects K) (S : PeersView K) (result : List (PeerRef K) × Objects K) : Prop where
  valid : result.2.Valid
  unchanged : heap.Extends result.2
  refers : result.2.Refers result.1
  view : result.2.viewOf result.1 = S

theorem addNewBlock_spec (valid : heap.Valid) {peers : List (PeerRef K)} (refers : heap.Refers peers)
    {block : IpBlock} {A : Set IPNetworkAddress} (holds : Holds block A) :
    Added heap (heap.viewOf peers ∪ ⟨∅, A⟩) (addNewBlock heap peers block) := by
  have same : {a | a ∈ block} = A := Set.ext fun a => holds_mem holds
  have extends_ := @newBlock_extends K heap block
  have found : (heap.newBlock block).2.blocks[heap.blocks.length]? = some block :=
    List.getElem?_concat_length
  refine ⟨newBlock_valid valid (IpBlock.holds_wellFormed holds), extends_, ?_, ?_⟩
  · intro ref member
    rcases mem_setAdd member with before | new
    · exact refers_mono extends_ refers ref before
    · obtain rfl := PeerRef.ipBlock.inj new
      exact (List.getElem?_eq_some_iff.mp found).1
  · show (heap.newBlock block).2.viewOf
      ((heap.newBlock block).2.setAdd peers (.ipBlock heap.blocks.length)) = _
    rw [viewOf_setAdd, viewOf_extends extends_ refers]
    congr 1
    apply PeersView.ext
    · exact Set.eq_empty_of_forall_notMem fun k member => nomatch List.mem_singleton.mp member
    · exact (covered_one found).trans same

theorem addNewBlocks_spec {ranges : List (IntervalOf IPNetworkAddress)} {peers : List (PeerRef K)}
    (each : ∀ i ∈ ranges, i.start ≤ i.end_ ∧ i.Solid) (valid : heap.Valid) (refers : heap.Refers peers) :
    Added heap (heap.viewOf peers ∪ ⟨∅, {a | ∃ i ∈ ranges, a ∈ i}⟩)
      (ranges.foldl (fun (peers, heap) ip_range => addNewBlock heap peers ⟨[ip_range]⟩) (peers, heap)) := by
  induction ranges generalizing peers heap with
  | nil =>
    refine ⟨valid, extends_refl heap, refers, PeersView.ext (Set.union_empty _).symm ?_⟩
    have none : {a | ∃ i ∈ ([] : List (IntervalOf IPNetworkAddress)), a ∈ i} = ∅ := by simp
    show _ = (heap.viewOf peers).addresses ∪ {a | ∃ i ∈ [], a ∈ i}
    rw [none, Set.union_empty]
    rfl
  | cons i rest ih =>
    obtain ⟨⟨proper, solid⟩, others⟩ := List.forall_mem_cons.mp each
    have first := addNewBlock_spec valid refers (holds_singleton proper solid)
    show Added heap _ (rest.foldl _ (addNewBlock heap peers ⟨[i]⟩))
    generalize addNewBlock heap peers ⟨[i]⟩ = added at first ⊢
    obtain ⟨peers', heap'⟩ := added
    have later := ih others first.valid first.refers
    refine ⟨later.valid, first.unchanged.trans later.unchanged, later.refers, ?_⟩
    rw [later.view, first.view]
    apply PeersView.ext
    · show _ ∪ ∅ ∪ ∅ = _ ∪ ∅
      rw [Set.union_empty]
    · show _ ∪ {a | a ∈ i} ∪ {a | ∃ i ∈ rest, a ∈ i} = _ ∪ {a | ∃ i' ∈ i :: rest, a ∈ i'}
      rw [Set.union_assoc]
      congr 1
      ext a
      simp

/-- The ranges of a block as blocks of their own. -/
theorem split_spec (valid : heap.Valid) {block : IpBlock} {A : Set IPNetworkAddress}
    (holds : Holds block A) : Made heap ⟨∅, A⟩ (heap.split block) := by
  have added : Added heap (heap.viewOf [] ∪ ⟨∅, {a | ∃ i ∈ block.interval_set, a ∈ i}⟩)
      (block.interval_set.foldl (fun (peers, heap) ip_range => addNewBlock heap peers ⟨[ip_range]⟩)
        ([], heap)) :=
    addNewBlocks_spec (fun i listed => ⟨holds_proper holds i listed, holds_solid holds i listed⟩) valid nofun
  have view : heap.viewOf [] ∪ ⟨∅, {a | ∃ i ∈ block.interval_set, a ∈ i}⟩ = (⟨∅, A⟩ : PeersView K) := by
    have none : {a | heap.Covered [] a} = ∅ := by simp [Covered]
    apply PeersView.ext
    · exact Set.eq_empty_of_forall_notMem fun k either => nomatch either
    · show {a | heap.Covered [] a} ∪ _ = A
      rw [none, Set.empty_union]
      exact Set.ext fun a => holds_mem holds
  rw [view] at added
  exact ⟨newSet_valid added.valid added.refers, added.unchanged.trans (newSet_extends _), _,
    List.getElem?_concat_length, added.view⟩

/-- The block exists and has these addresses. -/
def HasBlock (heap : Objects K) (ref : Nat) (A : Set IPNetworkAddress) : Prop :=
  ∃ block, heap.blocks[ref]? = some block ∧ Holds block A

/-- What a step that makes a new block leaves. -/
structure MadeBlock (heap : Objects K) (A : Set IPNetworkAddress) (result : Nat × Objects K) : Prop where
  valid : result.2.Valid
  unchanged : heap.Extends result.2
  block : HasBlock result.2 result.1 A

variable {self other ref ref' : Nat} {A B : Set IPNetworkAddress}

omit [DecidableEq K] in
theorem hasBlock_mono {heap' : Objects K} (extends_ : heap.Extends heap') (has : HasBlock heap ref A) :
    HasBlock heap' ref A := by
  obtain ⟨block, found, holds⟩ := has
  obtain ⟨here, _⟩ := List.getElem?_eq_some_iff.mp found
  exact ⟨block, (extends_.block here).trans found, holds⟩

omit [DecidableEq K] in
theorem made_newBlock (valid : heap.Valid) {block : IpBlock} (holds : Holds block A) :
    MadeBlock heap A (heap.newBlock block) :=
  ⟨newBlock_valid valid (IpBlock.holds_wellFormed holds), newBlock_extends block, block, withBlock_new, holds⟩

omit [DecidableEq K] in
theorem getIpBlockCanonicalForm_spec (valid : heap.Valid) (covers : heap.Covers self S) :
    Returns (getIpBlockCanonicalForm heap self) (MadeBlock heap S.addresses) := by
  obtain ⟨elems, found, rfl⟩ := covers
  obtain ⟨_, added, union, rfl, holds⟩ := addBlocks_spec valid (valid.refers found) holds_empty
  unfold getIpBlockCanonicalForm
  show Returns (item heap.sets self >>= fun elems =>
    addBlocks (withBlock heap {}) heap.blocks.length elems >>= _) _
  rw [item_found found, ok_bind, added, ok_bind]
  rw [Set.empty_union] at holds
  exact returns_pure (made_newBlock valid holds)

omit [DecidableEq K] in
theorem andBlock_spec (valid : heap.Valid) (left : HasBlock heap ref A) (right : HasBlock heap ref' B) :
    Returns (andBlock heap ref ref') (MadeBlock heap (A ∩ B)) := by
  obtain ⟨block, found, holds⟩ := left
  obtain ⟨block', found', holds'⟩ := right
  unfold andBlock
  rw [item_found found, item_found found', ok_bind, ok_bind]
  exact returns_pure (made_newBlock valid (holds_and holds holds'))

omit [DecidableEq K] in
theorem subBlock_spec (valid : heap.Valid) (left : HasBlock heap ref A) (right : HasBlock heap ref' B) :
    Returns (subBlock heap ref ref') (MadeBlock heap (A \ B)) := by
  obtain ⟨block, found, holds⟩ := left
  obtain ⟨block', found', holds'⟩ := right
  unfold subBlock
  rw [item_found found, item_found found', ok_bind, ok_bind]
  exact returns_pure (made_newBlock valid (holds_sub holds holds'))

theorem getPeerSet_spec (valid : heap.Valid) (has : HasBlock heap ref A) :
    Returns (getPeerSet heap ref) (Made heap ⟨∅, A⟩) := by
  obtain ⟨block, found, holds⟩ := has
  obtain ⟨here, _⟩ := List.getElem?_eq_some_iff.mp found
  have same : {a | a ∈ block} = A := Set.ext fun a => holds_mem holds
  unfold getPeerSet
  rw [item_found found, ok_bind]
  apply returns_ite
  · intro _
    have refers : heap.Refers [.ipBlock ref] := by
      intro ref' member
      rw [PeerRef.ipBlock.inj (List.mem_singleton.mp member)]
      exact here
    have view : heap.viewOf [PeerRef.ipBlock ref] = ⟨∅, A⟩ := by
      apply PeersView.ext
      · exact Set.eq_empty_of_forall_notMem fun k member => nomatch List.mem_singleton.mp member
      · exact (covered_one found).trans same
    rw [← view]
    exact returns_pure (made_newPeerSet valid refers)
  · intro empty
    have none : block.interval_set = [] := by simpa [CanonicalIntervalSetOf.bool] using empty
    have view : heap.viewOf [] = ⟨∅, A⟩ := by
      apply PeersView.ext
      · exact Set.eq_empty_of_forall_notMem fun k member => nomatch member
      · rw [← same]
        ext a
        constructor
        · exact fun ⟨_, _, no, _⟩ => nomatch no
        · intro ⟨i, listed, _⟩
          rw [none] at listed
          cases listed
    rw [← view]
    exact returns_pure (made_newPeerSet valid nofun)

omit [DecidableEq K] in
theorem getSetWithoutIpBlock_spec (covers : heap.Covers self S) :
    Returns (getSetWithoutIpBlock heap self) fun peers => {k | k ∈ peers} = S.others := by
  obtain ⟨elems, found, rfl⟩ := covers
  unfold getSetWithoutIpBlock
  rw [item_found found, ok_bind]
  apply returns_pure
  ext k
  show k ∈ List.filterMap _ elems ↔ .other k ∈ elems
  rw [List.mem_filterMap]
  constructor
  · intro ⟨elem, listed, same⟩
    cases elem with
    | other k' =>
      obtain rfl := Option.some.inj same
      exact listed
    | ipBlock ref => cases same
  · exact fun listed => ⟨_, listed, rfl⟩

theorem copy_spec (valid : heap.Valid) (covers : heap.Covers self S) :
    Returns (copy heap self) (Made heap S) := by
  obtain ⟨elems, found, rfl⟩ := covers
  unfold copy
  rw [item_found found, ok_bind]
  exact returns_pure (made_newPeerSet valid (valid.refers found))

omit [DecidableEq K] in
theorem made_mono {heap' : Objects K} {result : Nat × Objects K} (extends_ : heap.Extends heap')
    (made : Made heap' S result) : Made heap S result :=
  ⟨made.valid, extends_.trans made.unchanged, made.covers⟩

theorem or_spec (valid : heap.Valid) (left : heap.Covers self S) (right : heap.Covers other T) :
    Returns (or heap self other) (Made heap (S ∪ T)) := by
  obtain ⟨peers, found, rfl⟩ := left
  obtain ⟨more, found', rfl⟩ := right
  unfold or
  rw [item_found found, item_found found', ok_bind, ok_bind]
  have refers := refers_setUpdate (valid.refers found) (valid.refers found')
  have both : (heap.newSet (heap.setUpdate peers more)).2.Covers heap.sets.length
      (heap.viewOf peers ∪ heap.viewOf more) :=
    ⟨heap.setUpdate peers more, List.getElem?_concat_length, viewOf_setUpdate⟩
  apply returns_mono (copy_spec (newSet_valid valid refers) both)
  exact fun _ made => made_mono (newSet_extends _) made

/-- What `self |= other` leaves: only `self` is another set than before. -/
structure Extended (heap : Objects K) (self : Nat) (S : PeersView K) (result : Nat × Objects K) : Prop where
  valid : result.2.Valid
  blocks : heap.blocks <+: result.2.blocks
  sets : ∀ set ≠ self, ∀ peers, heap.sets[set]? = some peers → result.2.sets[set]? = some peers
  self : result.2.Covers self S
  covers : result.2.Covers result.1 S

theorem ior_spec (valid : heap.Valid) (left : heap.Covers self S) (right : heap.Covers other T) :
    Returns (ior heap self other) (Extended heap self (S ∪ T)) := by
  obtain ⟨peers, found, rfl⟩ := left
  obtain ⟨more, found', rfl⟩ := right
  obtain ⟨here, _⟩ := List.getElem?_eq_some_iff.mp found
  unfold ior
  rw [item_found found, item_found found', ok_bind, ok_bind]
  have refers := refers_setUpdate (valid.refers found) (valid.refers found')
  show Returns (copy { heap with sets := heap.sets.set self (heap.setUpdate peers more) } self) _
  generalize changed : { heap with sets := heap.sets.set self (heap.setUpdate peers more) } = heap'
  have sameBlocks : heap'.blocks = heap.blocks := by rw [← changed]
  have newSets : heap'.sets = heap.sets.set self (heap.setUpdate peers more) := by rw [← changed]
  have valid' : heap'.Valid := by
    constructor
    · rw [sameBlocks]
      exact valid.blocks
    · intro elems member
      unfold Refers
      rw [sameBlocks]
      rw [newSets] at member
      rcases List.mem_or_eq_of_mem_set member with before | rfl
      · exact valid.sets elems before
      · exact refers
  have extended : heap'.Covers self (heap.viewOf peers ∪ heap.viewOf more) := by
    refine ⟨heap.setUpdate peers more, ?_, ?_⟩
    · rw [newSets, List.getElem?_set_self here]
    · rw [← viewOf_setUpdate]
      unfold viewOf Covered
      rw [sameBlocks]
  apply returns_mono (copy_spec valid' extended)
  intro result made
  refine ⟨made.valid, sameBlocks ▸ made.unchanged.blocks, ?_, covers_mono valid' made.unchanged extended,
    made.covers⟩
  intro set different elems there
  apply made.unchanged.set
  rw [newSets, List.getElem?_set_ne (Ne.symm different), there]

section Combining

variable {blockOp : Objects K → Nat → Nat → Except Failure (Nat × Objects K)}
  {setOp : List K → List K → List K} {opA : Set IPNetworkAddress → Set IPNetworkAddress → Set IPNetworkAddress}
  {opK : Set K → Set K → Set K}

theorem iop_spec
    (blockSpec : ∀ {heap : Objects K} {ref ref' A B}, heap.Valid → HasBlock heap ref A →
      HasBlock heap ref' B → Returns (blockOp heap ref ref') (MadeBlock heap (opA A B)))
    (setSpec : ∀ peers more : List K, {k | k ∈ setOp peers more} = opK {k | k ∈ peers} {k | k ∈ more})
    (valid : heap.Valid) (left : heap.Covers self S) (right : heap.Covers other T) :
    Returns (iop heap blockOp setOp self other)
      (Made heap ⟨opK S.others T.others, opA S.addresses T.addresses⟩) := by
  unfold iop
  apply returns_bind (getIpBlockCanonicalForm_spec valid left)
  intro ⟨ref, heap₁⟩ first
  apply returns_bind (getIpBlockCanonicalForm_spec first.valid (covers_mono valid first.unchanged right))
  intro ⟨ref', heap₂⟩ second
  apply returns_bind (blockSpec second.valid (hasBlock_mono second.unchanged first.block) second.block)
  intro ⟨ref'', heap₃⟩ third
  apply returns_bind (getPeerSet_spec third.valid third.block)
  intro ⟨blocks, heap₄⟩ fourth
  have upTo := (first.unchanged.trans second.unchanged).trans (third.unchanged.trans fourth.unchanged)
  apply returns_bind (getSetWithoutIpBlock_spec (covers_mono valid upTo left))
  intro peers sameLeft
  apply returns_bind (getSetWithoutIpBlock_spec (covers_mono valid upTo right))
  intro more sameRight
  have view : heap₄.viewOf ((setOp peers more).map .other) = ⟨opK S.others T.others, ∅⟩ := by
    rw [← sameLeft, ← sameRight, ← setSpec]
    apply PeersView.ext
    · ext k
      show .other k ∈ List.map PeerRef.other _ ↔ _
      rw [List.mem_map_of_injective (fun _ _ => PeerRef.other.inj)]
      rfl
    · exact Set.eq_empty_of_forall_notMem fun a ⟨_, _, no, _⟩ =>
        have ⟨_, _, no⟩ := List.mem_map.mp no
        nomatch no
  have refers : heap₄.Refers ((setOp peers more).map .other) := by
    intro ref member
    obtain ⟨_, _, no⟩ := List.mem_map.mp member
    cases no
  have fifth := made_newPeerSet fourth.valid refers
  rw [view] at fifth
  apply returns_mono (or_spec fifth.valid fifth.covers
    (covers_mono fourth.valid fifth.unchanged fourth.covers))
  intro result made
  have whole : (⟨opK S.others T.others, ∅⟩ : PeersView K) ∪ ⟨∅, opA S.addresses T.addresses⟩ =
      ⟨opK S.others T.others, opA S.addresses T.addresses⟩ :=
    PeersView.ext (Set.union_empty _) (Set.empty_union _)
  rw [whole] at made
  exact made_mono (upTo.trans fifth.unchanged) made

end Combining

theorem iand_spec (valid : heap.Valid) (left : heap.Covers self S) (right : heap.Covers other T) :
    Returns (iand heap self other) (Made heap (S ∩ T)) := by
  apply iop_spec (fun valid => andBlock_spec valid) _ valid left right
  intro peers more
  ext k
  show k ∈ peers.filter (· ∈ more) ↔ k ∈ peers ∧ k ∈ more
  simp

theorem isub_spec (valid : heap.Valid) (left : heap.Covers self S) (right : heap.Covers other T) :
    Returns (isub heap self other) (Made heap (S \ T)) := by
  apply iop_spec (fun valid => subBlock_spec valid) _ valid left right
  intro peers more
  ext k
  show k ∈ peers.filter (· ∉ more) ↔ k ∈ peers ∧ k ∉ more
  simp

theorem and_spec (valid : heap.Valid) (left : heap.Covers self S) (right : heap.Covers other T) :
    Returns (and heap self other) (Made heap (S ∩ T)) := by
  apply returns_bind (copy_spec valid left)
  intro ⟨res, heap'⟩ copied
  apply returns_mono (iand_spec copied.valid copied.covers (covers_mono valid copied.unchanged right))
  exact fun _ made => made_mono copied.unchanged made

theorem sub_spec (valid : heap.Valid) (left : heap.Covers self S) (right : heap.Covers other T) :
    Returns (sub heap self other) (Made heap (S \ T)) := by
  apply returns_bind (copy_spec valid left)
  intro ⟨res, heap'⟩ copied
  apply returns_mono (isub_spec copied.valid copied.covers (covers_mono valid copied.unchanged right))
  exact fun _ made => made_mono copied.unchanged made

theorem eq_spec (valid : heap.Valid) (left : heap.Covers self S) (right : heap.Covers other T) :
    Returns (eq heap self other) fun result => heap.Extends result.2 ∧ (result.1 = true ↔ S = T) := by
  unfold eq
  apply returns_bind (getSetWithoutIpBlock_spec left)
  intro peers sameLeft
  apply returns_bind (getSetWithoutIpBlock_spec right)
  intro more sameRight
  have others : peers ⊆ more ∧ more ⊆ peers ↔ S.others = T.others := by
    rw [← sameLeft, ← sameRight]
    exact (Set.Subset.antisymm_iff (a := {k | k ∈ peers}) (b := {k | k ∈ more})).symm
  apply returns_ite
  · intro different
    refine returns_pure ⟨extends_refl heap, ?_⟩
    exact iff_of_false (by simp) fun same => different (others.mpr (congrArg PeersView.others same))
  · intro same
    have same := others.mp (not_not.mp same)
    apply returns_bind (getIpBlockCanonicalForm_spec valid left)
    intro ⟨ref, heap₁⟩ first
    apply returns_bind (getIpBlockCanonicalForm_spec first.valid (covers_mono valid first.unchanged right))
    intro ⟨ref', heap₂⟩ second
    obtain ⟨block, found, holds⟩ := hasBlock_mono second.unchanged first.block
    obtain ⟨block', found', holds'⟩ := second.block
    dsimp only at found found'
    show Returns (item heap₂.blocks ref >>= fun _ => item heap₂.blocks ref' >>= _) _
    rw [item_found found, ok_bind, item_found found', ok_bind]
    refine returns_pure ⟨first.unchanged.trans second.unchanged, ?_⟩
    rw [decide_eq_true_eq, holds_eq holds holds']
    constructor
    · exact fun addresses => PeersView.ext same addresses
    · exact fun views => congrArg PeersView.addresses views

/-- The operations on peer sets, which may share IP blocks, in any order and overlapping. -/
theorem peerSet_operations (valid : heap.Valid) (left : heap.Covers self S) (right : heap.Covers other T) :
    Returns (or heap self other) (Made heap (S ∪ T)) ∧
    Returns (and heap self other) (Made heap (S ∩ T)) ∧
    Returns (sub heap self other) (Made heap (S \ T)) ∧
    Returns (ior heap self other) (Extended heap self (S ∪ T)) ∧
    Returns (iand heap self other) (Made heap (S ∩ T)) ∧
    Returns (isub heap self other) (Made heap (S \ T)) ∧
    Returns (eq heap self other) fun result => heap.Extends result.2 ∧ (result.1 = true ↔ S = T) :=
  ⟨or_spec valid left right, and_spec valid left right, sub_spec valid left right,
    ior_spec valid left right, iand_spec valid left right, isub_spec valid left right,
    eq_spec valid left right⟩

/-- Two sets with a peer in common, of which each has a block that overlaps the other's. -/
def overlappingSets : Objects String where
  blocks := [⟨[⟨⟨.v4, 10, by decide⟩, ⟨.v4, 20, by decide⟩⟩]⟩, ⟨[⟨⟨.v4, 15, by decide⟩, ⟨.v4, 30, by decide⟩⟩]⟩]
  sets := [[.other "default/a", .ipBlock 0], [.ipBlock 1, .other "default/a", .other "default/b"]]

theorem overlappingSets_valid : overlappingSets.Valid := by
  constructor
  · intro block member
    have one : ∀ i : IntervalOf IPNetworkAddress, i.start ≤ i.end_ → i.start.version = i.end_.version →
        IpBlock.WellFormed ⟨[i]⟩ := fun i proper same =>
      ⟨List.forall_mem_singleton.mpr proper, List.forall_mem_singleton.mpr same,
        List.pairwise_singleton _ _, List.pairwise_singleton _ _⟩
    simp only [overlappingSets, List.mem_cons, List.not_mem_nil, or_false] at member
    rcases member with rfl | rfl
    · exact one _ (by decide) rfl
    · exact one _ (by decide) rfl
  · intro peers member ref listed
    simp only [overlappingSets, List.mem_cons, List.not_mem_nil, or_false] at member
    show ref < 2
    rcases member with rfl | rfl
    · have here : ref = 0 := by simpa using listed
      omega
    · have here : ref = 1 := by simpa using listed
      omega

theorem overlappingSets_operations :
    let heap := overlappingSets
    let S := heap.viewOf [.other "default/a", .ipBlock 0]
    let T := heap.viewOf [.ipBlock 1, .other "default/a", .other "default/b"]
    Returns (or heap 0 1) (Made heap (S ∪ T)) ∧
    Returns (and heap 0 1) (Made heap (S ∩ T)) ∧
    Returns (sub heap 0 1) (Made heap (S \ T)) ∧
    Returns (ior heap 0 1) (Extended heap 0 (S ∪ T)) ∧
    Returns (iand heap 0 1) (Made heap (S ∩ T)) ∧
    Returns (isub heap 0 1) (Made heap (S \ T)) ∧
    Returns (eq heap 0 1) fun result => heap.Extends result.2 ∧ (result.1 = true ↔ S = T) :=
  peerSet_operations overlappingSets_valid ⟨_, rfl, rfl⟩ ⟨_, rfl, rfl⟩

end PeerSetRef
end Nca.CoreDS
