import Nca.CoreDS.HyperCubeRuns
import Mathlib.Data.Finset.Dedup
import Mathlib.Data.Multiset.Fold
import Mathlib.Algebra.GroupWithZero.Nat

/-!
Hypercube sets as keys of dictionaries. Their hash agrees with their equality, so that a dictionary
finds every equal sub-cube; and while equal sub-cubes are merged the keys of the layers grow in place,
which no other key notices.
-/

namespace Nca.CoreDS
open Lib Python Space

variable {L H : Type} [ExactSet L String]

/-- The hashes of values; the one of a frozen set is made of the hashes of its elements in any order. -/
structure Hashes (L H : Type) where
  int : Int → H
  str : String → H
  dfa : L → H
  tuple : List H → H
  frozenset : Multiset H → H

/-- `hash(frozenset(xs))` -/
def Hashes.ofFrozenset {α : Type} [DecidableEq α] (hashes : Hashes L H) (hash : α → H) (xs : List α) : H :=
  hashes.frozenset (xs.toFinset.val.map hash)

def Interval.hash (hashes : Hashes L H) (self : Interval) : H :=
  hashes.tuple [hashes.int self.start, hashes.int self.end_]

def CanonicalIntervalSet.hash (hashes : Hashes L H) (self : CanonicalIntervalSet) : H :=
  hashes.ofFrozenset (Interval.hash hashes) self.interval_set

def LayerElem.hash (hashes : Hashes L H) : LayerElem L → H
  | intervals s => s.hash hashes
  | dfa l => hashes.dfa l

namespace CanonicalHyperCubeSet

/-- `__hash__`; of the empty interval it is the one of interval sets. -/
def hash (hashes : Hashes L H) (all_dimensions_list : List String) : CanonicalHyperCubeSet L → H
  | emptyInterval => CanonicalIntervalSet.hash hashes {}
  | mk active layers =>
    if active.isEmpty then hashes.ofFrozenset hashes.str all_dimensions_list
    else if layers.isEmpty then hashes.tuple [
      hashes.ofFrozenset (LayerElem.hash hashes) (Dict.keys layers),
      hashes.ofFrozenset hashes.str all_dimensions_list]
    else hashes.tuple [
      hashes.ofFrozenset (LayerElem.hash hashes) (Dict.keys layers),
      hashes.ofFrozenset hashes.str active,
      hashes.ofFrozenset hashes.str all_dimensions_list]

end CanonicalHyperCubeSet

/-- A hypercube set with the names of its dimensions; `layers` is a dictionary. -/
structure HyperCubeObject (L : Type) where
  all_dimensions_list : List String
  cubes : CanonicalHyperCubeSet L
  unique : (Dict.keys cubes.layers).Nodup

namespace HyperCubeObject
variable (self other : HyperCubeObject L)

/-- `__eq__` -/
def eq : Bool :=
  if self.all_dimensions_list ≠ other.all_dimensions_list then false
  else CanonicalHyperCubeSet.eq self.cubes other.cubes

def hash (hashes : Hashes L H) : H := self.cubes.hash hashes self.all_dimensions_list

end HyperCubeObject

section Agreement
open CanonicalHyperCubeSet

variable {layers layers' : Layers L}

/-- Dictionaries of as many entries, of which each is found in the other, have the same keys. -/
theorem keys_of_within (unique : (Dict.keys layers).Nodup)
    (length : layers.length = layers'.length) (within : layersWithin layers layers' = true) :
    (Dict.keys layers).toFinset = (Dict.keys layers').toFinset := by
  have subset : Dict.keys layers ⊆ Dict.keys layers' := by
    intro k inside
    obtain ⟨e, member, rfl⟩ := List.mem_map.mp inside
    obtain ⟨sub, found, _⟩ := layersWithin_iff.mp within e member
    exact Dict.get_isSome.mp (by simp [found])
  have perm : (Dict.keys layers).Perm (Dict.keys layers') := by
    apply (unique.subperm subset).perm_of_length_le
    simp [Dict.keys, length]
  exact List.toFinset_eq_of_perm _ _ perm

omit [ExactSet L String] in
theorem bool_eq_false {active : List String} : (mk active layers).bool = false ↔
    active.isEmpty = false ∧ layers.isEmpty = true := by
  show (active.isEmpty || !layers.isEmpty) = false ↔ _
  rw [Bool.or_eq_false_iff, Bool.not_eq_false']

theorem hash_of_eq (hashes : Hashes L H) (all_dimensions_list : List String)
    {h h' : CanonicalHyperCubeSet L} (unique : (Dict.keys h.layers).Nodup)
    (same : CanonicalHyperCubeSet.eq h h' = true) :
    h.hash hashes all_dimensions_list = h'.hash hashes all_dimensions_list := by
  cases h with
  | emptyInterval =>
    cases h' with
    | emptyInterval => rfl
    | mk active' layers' => cases same
  | mk active layers =>
    cases h' with
    | emptyInterval => cases same
    | mk active' layers' =>
      unfold CanonicalHyperCubeSet.eq at same
      show (if active.isEmpty = true then _ else _) = if active'.isEmpty = true then _ else _
      split at same
      case isTrue nothing =>
        -- both are empty, and their active dimensions do not count
        rw [Bool.and_eq_true, Bool.not_eq_true', Bool.not_eq_true', bool_eq_false, bool_eq_false] at nothing
        obtain ⟨⟨active, none⟩, active', none'⟩ := nothing
        obtain rfl := List.isEmpty_iff.mp none
        obtain rfl := List.isEmpty_iff.mp none'
        rw [active, active']
        rfl
      case isFalse some =>
        simp only [Bool.and_eq_true, decide_eq_true_eq] at same
        obtain ⟨⟨rfl, length⟩, within⟩ := same
        have keys : (Dict.keys layers).toFinset = (Dict.keys layers').toFinset :=
          keys_of_within unique length within
        have empty : layers.isEmpty = layers'.isEmpty := by
          rw [Bool.eq_iff_iff, List.isEmpty_iff_length_eq_zero, List.isEmpty_iff_length_eq_zero, length]
        unfold Hashes.ofFrozenset
        rw [keys, empty]

/-- Sets that compare equal have equal hashes. -/
theorem HyperCubeObject.hash_eq (hashes : Hashes L H) {a b : HyperCubeObject L} (same : a.eq b = true) :
    a.hash hashes = b.hash hashes := by
  unfold HyperCubeObject.eq at same
  split at same
  case isTrue => cases same
  case isFalse dimensions =>
    unfold HyperCubeObject.hash
    rw [not_not.mp dimensions]
    exact hash_of_eq hashes _ a.unique same

end Agreement

section Objects
open CanonicalHyperCubeSet

/-- A key of `layers` as an object: an interval set is known by its reference, a DFA never changes. -/
inductive KeyObject (L : Type) where
  | intervals (ref : Nat)
  | dfa (l : L)

/-- The interval sets by their references. -/
abbrev Heap := Nat → CanonicalIntervalSet

/-- `layers` by the objects of its keys; the sub-cubes hold none of them. -/
abbrev ObjectLayers (L : Type) := List (KeyObject L × CanonicalHyperCubeSet L)

namespace KeyObject

def read (heap : Heap) : KeyObject L → LayerElem L
  | intervals ref => .intervals (heap ref)
  | dfa l => .dfa l

def refs : KeyObject L → List Nat
  | intervals ref => [ref]
  | dfa _ => []

/-- `layer_0_new_elem |= elem`; an interval set grows in place, and in place of a DFA there is a new
one. -/
def ior (heap : Heap) : KeyObject L → KeyObject L → Except Failure (Heap × KeyObject L)
  | intervals ref, intervals other => do
    let union ← (heap ref).or (heap other)
    pure (Function.update heap ref union, intervals ref)
  | dfa l, dfa m => pure (heap, dfa (l ∪ m))
  | _, _ => .error .attribute

end KeyObject

def readLayers (heap : Heap) (layers : ObjectLayers L) : Layers L :=
  layers.map fun e => (e.1.read heap, e.2)

/-- The test of a dictionary for one of its keys: the hash, and then the equality. -/
def sameKey [DecidableEq H] (hashes : Hashes L H) (all_dimensions_list : List String)
    (key layer1 : CanonicalHyperCubeSet L) : Bool :=
  decide (key.hash hashes all_dimensions_list = layer1.hash hashes all_dimensions_list) &&
    key.eq layer1

/-- A class of layers: their sub-cube, the first key and the other ones. -/
abbrev ObjectClass (L : Type) := CanonicalHyperCubeSet L × KeyObject L × List (KeyObject L)

/-- `equiv_classes[layer1].append(layer0)`, or a new class. -/
def objectAppend (same : CanonicalHyperCubeSet L → CanonicalHyperCubeSet L → Bool)
    (layer1 : CanonicalHyperCubeSet L) (layer0 : KeyObject L) :
    List (ObjectClass L) → List (ObjectClass L)
  | [] => [(layer1, layer0, [])]
  | (key, first, others) :: rest =>
    if same key layer1 then (key, first, others ++ [layer0]) :: rest
    else (key, first, others) :: objectAppend same layer1 layer0 rest

/-- `new_layers[layer_0_new_elem] = layer_1_elem` -/
def setObject (heap : Heap) (layer0 : KeyObject L) (layer1 : CanonicalHyperCubeSet L) :
    ObjectLayers L → ObjectLayers L
  | [] => [(layer0, layer1)]
  | (key, sub_elem) :: rest =>
    if key.read heap = layer0.read heap then (key, layer1) :: rest
    else (key, sub_elem) :: setObject heap layer0 layer1 rest

/-- One turn of the loop over the classes. -/
def mergeClass (state : Heap × ObjectLayers L) (entry : ObjectClass L) :
    Except Failure (Heap × ObjectLayers L) := do
  let (heap, layer_0_new_elem) ← entry.2.2.foldlM (fun grown elem => grown.2.ior grown.1 elem)
    (state.1, entry.2.1)
  pure (heap, setObject heap layer_0_new_elem entry.1 state.2)

/-- `_apply_layer_elements_union` on objects. -/
def applyLayerElementsUnionInPlace [DecidableEq H] (hashes : Hashes L H)
    (all_dimensions_list : List String) (heap : Heap) (layers : ObjectLayers L) :
    Except Failure (Heap × ObjectLayers L) :=
  let equiv_classes := layers.foldl
    (fun classes e => objectAppend (sameKey hashes all_dimensions_list) e.2 e.1 classes) []
  equiv_classes.foldlM mergeClass (heap, [])

variable {heap heap' : Heap} {k : KeyObject L} {v : LayerElem L} {layers : ObjectLayers L}

omit [ExactSet L String] in
theorem read_congr (same : ∀ r ∈ k.refs, heap' r = heap r) : k.read heap' = k.read heap := by
  cases k with
  | intervals ref => exact congrArg LayerElem.intervals (same ref (List.mem_singleton_self ref))
  | dfa l => rfl

/-- The object has grown to the value, and no other object has changed. -/
structure GrownTo (heap : Heap) (k : KeyObject L) (v : LayerElem L) (grown : Heap × KeyObject L) :
    Prop where
  value : grown.2.read grown.1 = v
  refs : grown.2.refs = k.refs
  frame : ∀ r, r ∉ k.refs → grown.1 r = heap r

theorem ior_grown {e : KeyObject L} (run : (k.read heap).or (e.read heap) = .ok v) :
    ∃ grown, k.ior heap e = .ok grown ∧ GrownTo heap k v grown := by
  cases k with
  | intervals ref =>
    cases e with
    | intervals other =>
      obtain ⟨union, joined, last⟩ := bind_ok.mp (show ((heap ref).or (heap other) >>= fun s =>
        Except.ok (LayerElem.intervals s)) = .ok v from run)
      refine ⟨(Function.update heap ref union, .intervals ref), ?_, ?_, rfl, ?_⟩
      · show ((heap ref).or (heap other) >>= fun s => _) = _
        rw [joined]
        rfl
      · rw [← Except.ok.inj last]
        exact congrArg LayerElem.intervals (Function.update_self ref union heap)
      · intro r other
        exact Function.update_of_ne (fun same => other (List.mem_singleton.mpr same)) _ _
    | dfa m => cases run
  | dfa l =>
    cases e with
    | intervals other => cases run
    | dfa m => exact ⟨(heap, .dfa (l ∪ m)), rfl, Except.ok.inj run, rfl, fun _ _ => rfl⟩

theorem iorAll_grown {others : List (KeyObject L)}
    (apart : ∀ e ∈ others, ∀ r ∈ e.refs, r ∉ k.refs)
    (run : (others.map (KeyObject.read heap)).foldlM LayerElem.or (k.read heap) = .ok v) :
    ∃ grown, others.foldlM (fun grown elem => grown.2.ior grown.1 elem) (heap, k) = .ok grown ∧
      GrownTo heap k v grown := by
  induction others generalizing heap k with
  | nil => exact ⟨(heap, k), rfl, Except.ok.inj run, rfl, fun _ _ => rfl⟩
  | cons e rest ih =>
    rw [List.map_cons, List.foldlM_cons] at run
    obtain ⟨u, first, run⟩ := bind_ok.mp run
    obtain ⟨grown, step, value, refs, frame⟩ := ior_grown first
    have unchanged : rest.map (KeyObject.read grown.1) = rest.map (KeyObject.read heap) := by
      apply List.map_congr_left
      intro e' member
      apply read_congr
      exact fun r inside => frame r (apart e' (List.mem_cons_of_mem _ member) r inside)
    rw [← value, ← unchanged] at run
    obtain ⟨grown', others, value', refs', frame'⟩ := ih (k := grown.2) (by
      rw [refs]
      exact fun e' member => apart e' (List.mem_cons_of_mem _ member)) run
    refine ⟨grown', ?_, value', refs'.trans refs, ?_⟩
    · rw [List.foldlM_cons, step]
      exact others
    · intro r outside
      rw [frame' r (refs ▸ outside), frame r outside]

theorem setObject_read (layer1 : CanonicalHyperCubeSet L) (layers : ObjectLayers L) :
    readLayers heap (setObject heap k layer1 layers) =
      Dict.set (readLayers heap layers) (k.read heap) layer1 := by
  induction layers with
  | nil => rfl
  | cons e rest ih =>
    obtain ⟨key, sub_elem⟩ := e
    unfold setObject
    show readLayers heap (if key.read heap = k.read heap then _ else _) =
      if key.read heap = k.read heap then _ else _
    split
    · rfl
    · exact congrArg _ ih

theorem setObject_refs (layer1 : CanonicalHyperCubeSet L) (layers : ObjectLayers L) :
    ((setObject heap k layer1 layers).flatMap (·.1.refs)).Sublist
      (layers.flatMap (·.1.refs) ++ k.refs) := by
  induction layers with
  | nil => simp [setObject]
  | cons e rest ih =>
    obtain ⟨key, sub_elem⟩ := e
    unfold setObject
    split
    · simp
    · rw [List.flatMap_cons, List.flatMap_cons, List.append_assoc]
      exact ih.append_left _

/-- The class with the values of its keys. -/
def readClass (heap : Heap) (c : ObjectClass L) :
    CanonicalHyperCubeSet L × LayerElem L × List (LayerElem L) :=
  (c.1, c.2.1.read heap, c.2.2.map (KeyObject.read heap))

def classRefs (c : ObjectClass L) : List Nat := (c.2.1 :: c.2.2).flatMap KeyObject.refs

omit [ExactSet L String] in
theorem readClass_congr {c : ObjectClass L} (same : ∀ r ∈ classRefs c, heap' r = heap r) :
    readClass heap' c = readClass heap c := by
  have each : ∀ k ∈ c.2.1 :: c.2.2, k.read heap' = k.read heap := by
    intro k member
    apply read_congr
    exact fun r inside => same r (List.mem_flatMap.mpr ⟨k, member, inside⟩)
  have others : c.2.2.map (KeyObject.read heap') = c.2.2.map (KeyObject.read heap) :=
    List.map_congr_left fun k member => each k (List.mem_cons_of_mem _ member)
  unfold readClass
  rw [each _ List.mem_cons_self, others]

omit [ExactSet L String] in
theorem readLayers_congr (same : ∀ r ∈ layers.flatMap (·.1.refs), heap' r = heap r) :
    readLayers heap' layers = readLayers heap layers := by
  apply List.map_congr_left
  intro e member
  rw [read_congr fun r inside => same r (List.mem_flatMap.mpr ⟨e, member, inside⟩)]

/-- The keys of the classes that are left have not changed, nor have the merged ones. -/
theorem mergeClasses_read {classes : List (ObjectClass L)} {state : Heap × ObjectLayers L}
    {res : Layers L} (unique : (state.2.flatMap (·.1.refs) ++ classes.flatMap classRefs).Nodup)
    (run : (classes.map (readClass state.1)).foldlM (fun new_layers entry => do
      let layer_0_new_elem ← entry.2.2.foldlM LayerElem.or entry.2.1
      pure (Dict.set new_layers layer_0_new_elem entry.1)) (readLayers state.1 state.2) = .ok res) :
    ∃ state', classes.foldlM mergeClass state = .ok state' ∧ readLayers state'.1 state'.2 = res := by
  induction classes generalizing state with
  | nil => exact ⟨state, rfl, Except.ok.inj run⟩
  | cons c rest ih =>
    obtain ⟨done, left, apart⟩ := List.nodup_append.mp unique
    rw [List.flatMap_cons] at left apart
    obtain ⟨own, others, across⟩ := List.nodup_append.mp left
    rw [List.map_cons, List.foldlM_cons] at run
    obtain ⟨next, turn, run⟩ := bind_ok.mp run
    obtain ⟨v, merged, last⟩ := bind_ok.mp turn
    obtain ⟨grown, step, value, refs, frame⟩ := iorAll_grown (k := c.2.1) (by
      intro e member r inside first
      unfold classRefs at own
      rw [List.flatMap_cons] at own
      exact (List.nodup_append.mp own).2.2 r first r (List.mem_flatMap.mpr ⟨e, member, inside⟩) rfl) merged
    have mine : ∀ r ∈ c.2.1.refs, r ∈ classRefs c := fun r inside =>
      List.mem_flatMap.mpr ⟨_, List.mem_cons_self, inside⟩
    have kept : readLayers grown.1 state.2 = readLayers state.1 state.2 := by
      apply readLayers_congr
      intro r inside
      apply frame
      exact fun first => apart r inside r (List.mem_append_left _ (mine r first)) rfl
    have waiting : rest.map (readClass grown.1) = rest.map (readClass state.1) := by
      apply List.map_congr_left
      intro c' member
      apply readClass_congr
      intro r inside
      apply frame
      exact fun first => across r (mine r first) r (List.mem_flatMap.mpr ⟨c', member, inside⟩) rfl
    have turned : mergeClass state c = .ok (grown.1, setObject grown.1 grown.2 c.1 state.2) := by
      unfold mergeClass
      rw [step]
      rfl
    have shown : readLayers grown.1 (setObject grown.1 grown.2 c.1 state.2) = next := by
      rw [setObject_read, kept, value]
      exact Except.ok.inj last
    rw [← waiting, ← shown] at run
    have distinct : ((setObject grown.1 grown.2 c.1 state.2).flatMap (·.1.refs) ++
        rest.flatMap classRefs).Nodup := by
      apply List.Nodup.sublist _ unique
      rw [List.flatMap_cons, ← List.append_assoc]
      apply List.Sublist.append_right
      apply (setObject_refs c.1 state.2).trans
      rw [refs]
      apply List.Sublist.append_left
      exact List.sublist_append_left _ _
    obtain ⟨state', whole, read⟩ := @ih (grown.1, setObject grown.1 grown.2 c.1 state.2) distinct run
    exact ⟨state', by rw [List.foldlM_cons, turned]; exact whole, read⟩

section Classes

variable {same : CanonicalHyperCubeSet L → CanonicalHyperCubeSet L → Bool} {layer1 : CanonicalHyperCubeSet L}
  {layer0 : KeyObject L} {classes : List (ObjectClass L)}

theorem objectAppend_read (agrees : ∀ c ∈ classes, same c.1 layer1 = c.1.eq layer1) :
    (objectAppend same layer1 layer0 classes).map (readClass heap) =
      classAppend layer1 (layer0.read heap) (classes.map (readClass heap)) := by
  induction classes with
  | nil => rfl
  | cons c rest ih =>
    obtain ⟨key, first, others⟩ := c
    obtain ⟨head, tail⟩ := List.forall_mem_cons.mp agrees
    unfold objectAppend
    rw [head, List.map_cons]
    show _ = if key.eq layer1 = true then _ else _
    split
    · simp [readClass]
    · rw [List.map_cons, ih tail]
      rfl

omit [ExactSet L String] in
theorem objectAppend_subs : ∀ c ∈ objectAppend same layer1 layer0 classes,
    c.1 = layer1 ∨ ∃ c' ∈ classes, c'.1 = c.1 := by
  induction classes with
  | nil =>
    intro c member
    rw [objectAppend, List.mem_singleton] at member
    exact Or.inl (congrArg Prod.fst member)
  | cons entry rest ih =>
    obtain ⟨key, first, others⟩ := entry
    unfold objectAppend
    split
    · intro c member
      cases List.mem_cons.mp member with
      | inl head => exact Or.inr ⟨_, List.mem_cons_self, (congrArg Prod.fst head).symm⟩
      | inr later => exact Or.inr ⟨c, List.mem_cons_of_mem _ later, rfl⟩
    · intro c member
      cases List.mem_cons.mp member with
      | inl head => exact Or.inr ⟨_, List.mem_cons_self, (congrArg Prod.fst head).symm⟩
      | inr later =>
        apply (ih c later).imp_right
        exact fun ⟨c', inside, shared⟩ => ⟨c', List.mem_cons_of_mem _ inside, shared⟩

omit [ExactSet L String] in
theorem objectAppend_refs : ((objectAppend same layer1 layer0 classes).flatMap classRefs).Perm
    (classes.flatMap classRefs ++ layer0.refs) := by
  induction classes with
  | nil => simp [objectAppend, classRefs]
  | cons entry rest ih =>
    obtain ⟨key, first, others⟩ := entry
    unfold objectAppend
    split
    · simp only [classRefs, List.flatMap_cons, List.flatMap_append, List.flatMap_nil, List.append_nil,
        List.append_assoc]
      apply List.Perm.append_left
      apply List.Perm.append_left
      exact List.perm_append_comm
    · rw [List.flatMap_cons, List.flatMap_cons, List.append_assoc]
      exact ih.append_left _

variable (heap same)

/-- The classes of the objects that have been seen. -/
structure ReadClasses (seen : ObjectLayers L) (classes : List (ObjectClass L)) : Prop where
  read : classes.map (readClass heap) =
    (readLayers heap seen).foldl (fun classes e => classAppend e.2 e.1 classes) []
  subs : ∀ c ∈ classes, ∃ e ∈ seen, e.2 = c.1
  refs : (classes.flatMap classRefs).Perm (seen.flatMap (·.1.refs))

theorem classes_read (agrees : ∀ e ∈ layers, ∀ e' ∈ layers, same e.2 e'.2 = e.2.eq e'.2) :
    ReadClasses heap layers (layers.foldl (fun classes e => objectAppend same e.2 e.1 classes) []) := by
  induction layers using List.reverseRecOn with
  | nil => exact ⟨rfl, List.forall_mem_nil _, .nil⟩
  | append_singleton seen e ih =>
    have earlier : ∀ e ∈ seen, ∀ e' ∈ seen, same e.2 e'.2 = e.2.eq e'.2 := fun e member e' member' =>
      agrees e (List.mem_append_left _ member) e' (List.mem_append_left _ member')
    obtain ⟨read, subs, refs⟩ := ih earlier
    rw [List.foldl_append, List.foldl_cons, List.foldl_nil]
    constructor
    · rw [objectAppend_read, read]
      · unfold readLayers
        rw [List.map_append, List.foldl_append]
        rfl
      · intro c member
        obtain ⟨e', inside, shared⟩ := subs c member
        rw [← shared]
        exact agrees e' (List.mem_append_left _ inside) e (List.mem_append_right _ List.mem_cons_self)
    · intro c member
      cases objectAppend_subs c member with
      | inl new => exact ⟨e, List.mem_append_right _ List.mem_cons_self, new.symm⟩
      | inr old =>
        obtain ⟨c', inside, shared⟩ := old
        obtain ⟨e', listed, found⟩ := subs c' inside
        exact ⟨e', List.mem_append_left _ listed, found.trans shared⟩
    · rw [List.flatMap_append, List.flatMap_singleton]
      exact objectAppend_refs.trans (refs.append_right _)

end Classes

section Merging

variable {space : Space L} {d : String} {ds : List String}

omit [ExactSet L String] in
theorem shared_ref {k k' : KeyObject L} {r : Nat} (inside : r ∈ k.refs) (inside' : r ∈ k'.refs) :
    k = k' := by
  cases k with
  | dfa l => cases inside
  | intervals ref =>
    cases k' with
    | dfa l => cases inside'
    | intervals ref' => rw [← List.mem_singleton.mp inside, ← List.mem_singleton.mp inside']

theorem refs_nodup {below : CanonicalHyperCubeSet L → Prop}
    (parts : Parts space d below (readLayers heap layers)) : (layers.flatMap (·.1.refs)).Nodup := by
  apply List.nodup_flatMap.mpr
  constructor
  · intro e _
    cases e.1 with
    | intervals ref => exact List.nodup_singleton ref
    | dfa l => exact List.nodup_nil
  · have apart := List.pairwise_map.mp parts.apart
    apply apart.imp_of_mem
    intro e e' member _ apart r inside inside'
    -- two keys of one reference have the same values, and some value
    have shared := congrArg (KeyObject.read heap) (shared_ref inside inside')
    obtain ⟨x, value⟩ := (parts.keys _ (List.mem_map_of_mem member)).some
    exact apart x value (shared ▸ value)

theorem level_unique {h : CanonicalHyperCubeSet L} (level : Level space ds h) :
    (Dict.keys h.layers).Nodup := by
  cases ds with
  | nil =>
    rw [show h = emptyInterval from level]
    exact List.nodup_nil
  | cons d ds =>
    obtain ⟨layers, rfl, parts, _⟩ := level
    exact keys_nodup parts

theorem sameKey_eq [DecidableEq H] (hashes : Hashes L H) (all_dimensions_list : List String)
    {h h' : CanonicalHyperCubeSet L} (level : Level space ds h) :
    sameKey hashes all_dimensions_list h h' = h.eq h' := by
  unfold sameKey
  cases equal : h.eq h' with
  | false => exact Bool.and_false _
  | true => rw [decide_eq_true (hash_of_eq hashes all_dimensions_list (level_unique level) equal)]; rfl

/-- On objects the union is what it is on values. -/
theorem inPlace_read [DecidableEq H] (hashes : Hashes L H) (all_dimensions_list : List String)
    (parts : Parts space d (Level space ds) (readLayers heap layers)) {active : List String} {res : Layers L}
    (run : applyLayerElementsUnion (mk active (readLayers heap layers)) = .ok (mk active res)) :
    ∃ state, applyLayerElementsUnionInPlace hashes all_dimensions_list heap layers = .ok state ∧
      readLayers state.1 state.2 = res := by
  have agrees : ∀ e ∈ layers, ∀ e' ∈ layers,
      sameKey hashes all_dimensions_list e.2 e'.2 = e.2.eq e'.2 := fun e member _ _ =>
    sameKey_eq hashes all_dimensions_list (parts.subs _ (List.mem_map_of_mem member))
  obtain ⟨read, _, refs⟩ := classes_read heap _ agrees
  unfold applyLayerElementsUnion at run
  dsimp only at run
  rw [← read] at run
  obtain ⟨new_layers, merged, last⟩ := bind_ok.mp run
  cases last
  exact mergeClasses_read (refs.nodup_iff.mpr (refs_nodup parts)) merged

/-- The union of the layers keeps the points, and leaves pairwise distinct sub-cubes and keys that
exclude each other; hypercube sets that are equal have the same hash. -/
theorem layerElementsUnion_merges [DecidableEq H] (hashes : Hashes L H) (all_dimensions_list : List String)
    (heap : Heap) (layers : ObjectLayers L)
    (parts : Parts space d (Level space ds) (readLayers heap layers)) :
    (∃ heap' new_layers, applyLayerElementsUnionInPlace hashes all_dimensions_list heap layers =
        .ok (heap', new_layers) ∧
      (∀ p, Holds (d :: ds) (mk (d :: ds) (readLayers heap' new_layers)) p ↔
        Holds (d :: ds) (mk (d :: ds) (readLayers heap layers)) p) ∧
      ((readLayers heap' new_layers).Pairwise fun e e' => e.2.eq e'.2 = false) ∧
      (readLayers heap' new_layers).Pairwise fun e e' => ∀ x, x ∈ e.1 → x ∉ e'.1) ∧
    ∀ a b : HyperCubeObject L, a.eq b = true → a.hash hashes = b.hash hashes := by
  constructor
  · have sound : EqSound ds (Level space ds) := fun _ _ left right equal => eq_sound left right equal
    obtain ⟨_, run, res, rfl, parts', distinct, holds⟩ := applyLayerElementsUnion_parts sound parts
    obtain ⟨⟨heap', new_layers⟩, whole, read⟩ := inPlace_read hashes all_dimensions_list parts run
    refine ⟨heap', new_layers, whole, ?_⟩
    rw [read]
    exact ⟨holds, distinct, parts'.apart⟩
  · exact fun a b => HyperCubeObject.hash_eq hashes

end Merging

section Ports

/-- Hashes that add up numbers and lengths. -/
def sumHashes : Hashes (Finset String) Nat where
  int n := n.toNat
  str s := s.length
  dfa _ := 0
  tuple := List.sum
  frozenset := Multiset.fold (· + ·) 0

/-- The object with reference `n` is the port `n`. -/
def portHeap : Heap := fun n => ⟨[⟨n, n⟩]⟩

/-- The destination port 443. -/
def securePort : CanonicalHyperCubeSet (Finset String) := .mk ["dst_ports"] [(port 443, .emptyInterval)]

/-- Two source ports with the same destination, and one with another destination between them. -/
def portLayers : ObjectLayers (Finset String) :=
  [(.intervals 1, securePort), (.intervals 2, .mk ["dst_ports"] [(port 80, .emptyInterval)]),
    (.intervals 3, securePort)]

theorem mem_port {x : Item} {n : Int} : x ∈ port n ↔ x = .int n := by
  cases x with
  | str w => exact ⟨False.elim, nofun⟩
  | int i =>
    constructor
    · intro ⟨a, member, lower, upper⟩
      obtain rfl := List.mem_singleton.mp member
      exact congrArg Item.int (Int.le_antisymm upper lower)
    · intro same
      rw [Item.int.inj same]
      exact ⟨⟨n, n⟩, List.mem_singleton_self _, Interval.start_mem (Int.le_refl n)⟩

theorem port_key {n : Int} {d : String} (low : 1 ≤ n) (high : n ≤ 65535)
    (known : d ∈ ports.all_dimensions_list) : Key ports d (port n) := by
  obtain ⟨_, fits⟩ := port_fits low high known
  cases fits with
  | cons first _ => exact ⟨first.1, ⟨.int n, mem_port.mpr rfl⟩, first.2⟩

theorem onePort_level {n : Int} (low : 1 ≤ n) (high : n ≤ 65535) :
    Level ports ["dst_ports"] (mk ["dst_ports"] [(port n, emptyInterval)]) := by
  refine ⟨_, rfl, ⟨?_, ?_, List.pairwise_singleton _ _⟩, List.pairwise_singleton _ _⟩
  · exact List.forall_mem_singleton.mpr (port_key low high (by decide))
  · exact List.forall_mem_singleton.mpr ⟨rfl, fun some => absurd rfl some⟩

theorem portLayers_parts :
    Parts ports "src_ports" (Level ports ["dst_ports"]) (readLayers portHeap portLayers) := by
  have keys : (readLayers portHeap portLayers).map Prod.fst = [1, 2, 3].map port := rfl
  constructor
  · intro e member
    have listed := List.mem_map_of_mem (f := Prod.fst) member
    rw [keys] at listed
    obtain ⟨n, inside, same⟩ := List.mem_map.mp listed
    have range : 1 ≤ n ∧ n ≤ 3 := by
      simp only [List.mem_cons, List.not_mem_nil, or_false] at inside
      omega
    rw [← same]
    exact port_key range.1 (by omega) (by decide)
  · intro e member
    simp only [readLayers, portLayers, List.map_cons, List.map_nil, List.mem_cons, List.not_mem_nil,
      or_false] at member
    rcases member with rfl | rfl | rfl <;> exact onePort_level (by decide) (by decide)
  · have apart : [1, 2, 3].Pairwise fun m n : Int => ∀ x, x ∈ port m → x ∉ port n := by
      simp [mem_port]
    have mapped : ([1, 2, 3].map port).Pairwise fun k k' => ∀ x, x ∈ k → x ∉ k' :=
      List.pairwise_map.mpr apart
    rw [← keys] at mapped
    exact List.pairwise_map.mp mapped

theorem portLayers_merges :
    (∃ heap' new_layers,
      applyLayerElementsUnionInPlace sumHashes ports.all_dimensions_list portHeap portLayers =
        .ok (heap', new_layers) ∧
      (∀ p, Holds ports.all_dimensions_list (mk ports.all_dimensions_list (readLayers heap' new_layers)) p ↔
        Holds ports.all_dimensions_list
          (mk ports.all_dimensions_list (readLayers portHeap portLayers)) p) ∧
      ((readLayers heap' new_layers).Pairwise fun e e' => e.2.eq e'.2 = false) ∧
      (readLayers heap' new_layers).Pairwise fun e e' => ∀ x, x ∈ e.1 → x ∉ e'.1) ∧
    ∀ a b : HyperCubeObject (Finset String), a.eq b = true → a.hash sumHashes = b.hash sumHashes :=
  layerElementsUnion_merges sumHashes ports.all_dimensions_list portHeap portLayers portLayers_parts

end Ports
end Objects
end Nca.CoreDS
