import Nca.CoreDS.ConnectivitySpace
import Mathlib.Logic.Equiv.Basic

/-!
Connectivity properties over another order of the dimensions. A set is built again from its cubes,
each with its values in the new order.
-/

namespace Nca.CoreDS
open Lib Python Space

namespace CanonicalHyperCubeSet

/-- `xs.index(x)`. -/
def indexOf (xs : List String) (x : String) : Except Failure Nat :=
  if x ∈ xs then pure (xs.idxOf x) else .error (.raised "ValueError")

/-- `xs[i] = x` for an index that is not negative. -/
def setItem {α : Type} (xs : List α) (i : Nat) (x : α) : Except Failure (List α) :=
  if i < xs.length then pure (xs.set i x) else .error .index

/-- `_reorder_list_by_map`. -/
def reorderListByMap {α : Type} (orig_list : List α) (new_to_old_map : List Nat) : Except Failure (List α) :=
  (List.range orig_list.length).mapM fun (i : Nat) => do item orig_list (← item new_to_old_map i)

/-- The loop of `_reorder_by_dim_list` over the dimensions: the places of the new active dimensions among
the old ones, and the new active dimensions. -/
def reorderActive (active_dimensions new_all_dimensions_list : List String) :
    Except Failure (List Nat × List String) :=
  new_all_dimensions_list.foldlM (fun (acc : List Nat × List String) dim =>
    if dim ∈ active_dimensions then do
      let old ← indexOf active_dimensions dim
      pure (← setItem acc.1 acc.2.length old, acc.2 ++ [dim])
    else pure acc) (List.range active_dimensions.length, [])

variable {L : Type} [ExactSet L String]

/-- The space of `ConnectivityProperties(dimensions_list)`, which has the same dimensions. -/
def ofOrder (space : Space L) (dimensions_list : List String) : Except Failure (Space L) :=
  if same : dimensions_list.Perm space.all_dimensions_list then
    pure {
      manager := space.manager
      all_dimensions_list := dimensions_list
      nodup := same.nodup_iff.mpr space.nodup
      some_dimension := fun none => space.some_dimension (List.nil_perm.mp (none ▸ same))
      domains := fun d member => space.domains d (same.mem_iff.mp member) }
  else .error .assertion

section Reorder
variable (space : Space L) (self : CanonicalHyperCubeSet L)

def reorderByDimList (new_all_dims_map : List Nat) : Except Failure (Space L × CanonicalHyperCubeSet L) := do
  let new_all_dimensions_list ← reorderListByMap space.all_dimensions_list new_all_dims_map
  let (new_active_dims_map, new_active_dimensions) ←
    reorderActive self.active_dimensions new_all_dimensions_list
  let new_space ← ofOrder space new_all_dimensions_list
  let res ← (← iter space self).foldlM (fun res cube => do
    let new_cube ← reorderListByMap cube new_active_dims_map
    res.addCube new_space new_cube (some new_active_dimensions)) (init new_space)
  pure (new_space, res)

def reorderBySwitchingSrcDstPeers : Except Failure (Space L × CanonicalHyperCubeSet L) := do
  let new_all_dims_map := List.range space.all_dimensions_list.length
  let src_peers_index ← indexOf space.all_dimensions_list "src_peers"
  let dst_peers_index ← indexOf space.all_dimensions_list "dst_peers"
  let new_all_dims_map ← setItem new_all_dims_map src_peers_index dst_peers_index
  let new_all_dims_map ← setItem new_all_dims_map dst_peers_index src_peers_index
  reorderByDimList space self new_all_dims_map

def minimize : Except Failure (Space L × CanonicalHyperCubeSet L) := do
  let new_props ← reorderBySwitchingSrcDstPeers space self
  pure (if (← len space self) ≤ (← len new_props.1 new_props.2) then (space, self) else new_props)

end Reorder

theorem indexOf_eq {xs : List String} {x : String} (member : x ∈ xs) : indexOf xs x = .ok (xs.idxOf x) :=
  if_pos member

theorem setItem_eq {α : Type} {xs : List α} {i : Nat} (bound : i < xs.length) (x : α) :
    setItem xs i x = .ok (xs.set i x) := if_pos bound

section Lists

variable {α : Type} {xs : List α} {places : List Nat}

theorem reorderListByMap_spec (valid : ∀ i < xs.length, ∃ j, places[i]? = some j ∧ j < xs.length) :
    Returns (reorderListByMap xs places) fun ys => ys.length = xs.length ∧
      ∀ i j, i < xs.length → places[i]? = some j → ys[i]? = xs[j]? := by
  have each : ∀ i ∈ List.range xs.length, Returns (do item xs (← item places i)) fun y =>
      ∀ j, places[i]? = some j → xs[j]? = some y := by
    intro i listed
    obtain ⟨j, found, bound⟩ := valid i (List.mem_range.mp listed)
    obtain ⟨y, there⟩ : ∃ y, xs[j]? = some y := ⟨_, List.getElem?_eq_getElem bound⟩
    rw [item_found found, ok_bind, item_found there]
    refine returns_ok fun j' found' => ?_
    rw [found] at found'
    rw [← Option.some.inj found', there]
  unfold reorderListByMap
  apply returns_mono (returns_mapM each)
  intro ys related
  have sameLength := related.length_eq
  rw [List.length_range] at sameLength
  refine ⟨sameLength.symm, fun i j bound found => ?_⟩
  have first : i < (List.range xs.length).length := by rwa [List.length_range]
  have second : i < ys.length := by omega
  have here := related.get first second
  rw [List.get_eq_getElem, List.get_eq_getElem, List.getElem_range] at here
  rw [here j found, List.getElem?_eq_getElem second]

theorem reorder_nothing (x : α) (xs : List α) : reorderListByMap (x :: xs) [] = .error .index := by
  unfold reorderListByMap
  rw [List.length_cons, List.range_succ_eq_map, List.mapM_cons]
  rfl

theorem mem_zip_iff {β : Type} {ys : List β} {x : α} {y : β} :
    (x, y) ∈ xs.zip ys ↔ ∃ i : Nat, xs[i]? = some x ∧ ys[i]? = some y := by
  rw [List.mem_iff_getElem?]
  exact exists_congr fun i => List.getElem?_zip_eq_some

end Lists

section Active

variable {active dims : List String}

/-- Where the list of dimensions has the active ones, the places of these are found. -/
theorem reorderActive_spec (nodup : dims.Nodup) :
    Returns (reorderActive active dims) fun r => r.2 = dims.filter (· ∈ active) ∧
      r.1.length = active.length ∧ ∀ (k : Nat) d, r.2[k]? = some d → r.1[k]? = some (active.idxOf d) := by
  apply returns_foldlM (fun before (r : List Nat × List String) => r.2 = before.filter (· ∈ active) ∧
    r.1.length = active.length ∧ ∀ (k : Nat) d, r.2[k]? = some d → r.1[k]? = some (active.idxOf d))
  · exact ⟨rfl, List.length_range, nofun⟩
  · intro before dim after ⟨places, news⟩ whole ⟨filtered, sameLength, found⟩
    dsimp only at filtered sameLength found
    have grown : (before ++ [dim]).filter (· ∈ active) = news ++ [dim].filter (· ∈ active) := by
      rw [List.filter_append, filtered]
    apply returns_ite
    · intro member
      have within : (before ++ [dim]).filter (· ∈ active) ⊆ active := fun d listed =>
        of_decide_eq_true (List.mem_filter.mp listed).2
      rw [whole, List.append_cons] at nodup
      have shorter := (nodup.of_append_left.filter _).subperm within |>.length_le
      have kept : [dim].filter (· ∈ active) = [dim] := by simp [member]
      rw [grown, kept, List.length_append, List.length_singleton] at shorter
      have room : news.length < places.length := by omega
      show Returns (indexOf active dim >>= fun old => setItem places news.length old >>= fun places =>
        pure (places, news ++ [dim])) _
      rw [indexOf_eq member, ok_bind, setItem_eq room, ok_bind]
      refine returns_pure ⟨?_, ?_, ?_⟩
      · rw [grown, kept]
      · rwa [List.length_set]
      · intro k d here
        show (places.set news.length (active.idxOf dim))[k]? = _
        have here : (news ++ [dim])[k]? = some d := here
        by_cases last : k = news.length
        · subst last
          rw [List.getElem?_concat_length, Option.some.injEq] at here
          rw [List.getElem?_set_self room, here]
        · obtain ⟨bound, _⟩ := List.getElem?_eq_some_iff.mp here
          rw [List.length_append, List.length_singleton] at bound
          rw [List.getElem?_append_left (by omega)] at here
          rw [List.getElem?_set_ne (Ne.symm last)]
          exact found k d here
    · intro outside
      have none : [dim].filter (· ∈ active) = [] := by simp [outside]
      refine returns_pure ⟨?_, sameLength, found⟩
      rw [grown, none, List.append_nil]

omit [ExactSet L String] in
/-- A cube in the new order of the active dimensions has the same values. -/
theorem reorderCube_spec {places : List Nat} {cube : List (LayerElem L)} (nodup : active.Nodup)
    (sameLength : cube.length = active.length) (whole : dims.length = active.length)
    (members : ∀ d, d ∈ dims ↔ d ∈ active)
    (found : ∀ (k : Nat) d, dims[k]? = some d → places[k]? = some (active.idxOf d)) :
    Returns (reorderListByMap cube places) fun new_cube => new_cube.length = dims.length ∧
      ∀ value d, (value, d) ∈ new_cube.zip dims ↔ (value, d) ∈ cube.zip active := by
  have place : ∀ {k : Nat} {d : String}, dims[k]? = some d → active.idxOf d < active.length :=
    fun here => List.idxOf_lt_length_of_mem ((members _).mp (List.mem_of_getElem? here))
  have valid : ∀ i < cube.length, ∃ j, places[i]? = some j ∧ j < cube.length := by
    intro i bound
    obtain ⟨d, here⟩ : ∃ d, dims[i]? = some d := ⟨_, List.getElem?_eq_getElem (by omega)⟩
    exact ⟨_, found i d here, sameLength ▸ place here⟩
  apply returns_mono (reorderListByMap_spec valid)
  intro new_cube ⟨newLength, moved⟩
  refine ⟨by omega, fun value d => ?_⟩
  rw [mem_zip_iff, mem_zip_iff]
  constructor
  · intro ⟨i, there, here⟩
    obtain ⟨bound, _⟩ := List.getElem?_eq_some_iff.mp there
    rw [moved i _ (by omega) (found i d here)] at there
    exact ⟨_, there, List.getElem?_idxOf (List.idxOf_lt_length_iff.mp (place here))⟩
  · intro ⟨i, there, here⟩
    obtain ⟨k, new⟩ := List.mem_iff_getElem?.mp ((members d).mpr (List.mem_of_getElem? here))
    obtain ⟨bound, _⟩ := List.getElem?_eq_some_iff.mp new
    refine ⟨k, ?_, new⟩
    obtain ⟨bound', rfl⟩ := List.getElem?_eq_some_iff.mp here
    rw [moved k _ (by omega) (found k _ new), nodup.idxOf_getElem i bound', there]

end Active

section Switch

variable {space : Space L} {self : CanonicalHyperCubeSet L} {dims : List String}

/-- The dimensions with the two of peers switched. -/
def switched (dims : List String) : List String := dims.map (Equiv.swap "src_peers" "dst_peers")

theorem switched_perm (nodup : dims.Nodup) (src : "src_peers" ∈ dims) (dst : "dst_peers" ∈ dims) :
    (switched dims).Perm dims := by
  apply (List.perm_ext_iff_of_nodup (nodup.map (Equiv.swap "src_peers" "dst_peers").injective) nodup).mpr
  intro d
  have kept : ∀ d, d ∈ dims → Equiv.swap "src_peers" "dst_peers" d ∈ dims := by
    intro d member
    rw [Equiv.swap_apply_def]
    split
    · exact dst
    · split
      · exact src
      · exact member
  rw [List.mem_map]
  constructor
  · intro ⟨d', member, same⟩
    exact same ▸ kept d' member
  · exact fun member => ⟨_, kept d member, Equiv.swap_apply_self _ _ d⟩

/-- The map of `reorder_by_switching_src_dst_peers` switches the dimensions of peers. -/
theorem switchDimensions_spec (nodup : dims.Nodup) (src : "src_peers" ∈ dims) (dst : "dst_peers" ∈ dims) :
    Returns (reorderListByMap dims
      (((List.range dims.length).set (dims.idxOf "src_peers") (dims.idxOf "dst_peers")).set
        (dims.idxOf "dst_peers") (dims.idxOf "src_peers"))) (· = switched dims) := by
  have srcBound := List.idxOf_lt_length_of_mem src
  have dstBound := List.idxOf_lt_length_of_mem dst
  have srcThere : dims[dims.idxOf "src_peers"]? = some "src_peers" := List.getElem?_idxOf src
  have dstThere : dims[dims.idxOf "dst_peers"]? = some "dst_peers" := List.getElem?_idxOf dst
  generalize dims.idxOf "src_peers" = s at *
  generalize dims.idxOf "dst_peers" = t at *
  have apart : s ≠ t := by
    intro same
    rw [same, dstThere] at srcThere
    exact absurd (Option.some.inj srcThere) (by decide)
  have places : ∀ i < dims.length, (((List.range dims.length).set s t).set t s)[i]? =
      some (if i = t then s else if i = s then t else i) := by
    intro i bound
    by_cases isDst : i = t
    · subst isDst
      rw [List.getElem?_set_self (by simpa using bound), if_pos rfl]
    · rw [List.getElem?_set_ne (Ne.symm isDst), if_neg isDst]
      by_cases isSrc : i = s
      · subst isSrc
        rw [List.getElem?_set_self (by simpa using bound), if_pos rfl]
      · rw [List.getElem?_set_ne (Ne.symm isSrc), if_neg isSrc, List.getElem?_range bound]
  have valid : ∀ i < dims.length, ∃ j, (((List.range dims.length).set s t).set t s)[i]? = some j ∧
      j < dims.length := by
    intro i bound
    refine ⟨_, places i bound, ?_⟩
    split
    · exact srcBound
    · split
      · exact dstBound
      · exact bound
  apply returns_mono (reorderListByMap_spec valid)
  intro ys ⟨sameLength, moved⟩
  apply List.ext_getElem?
  intro i
  by_cases bound : i < dims.length
  · rw [moved i _ bound (places i bound), switched, List.getElem?_map]
    by_cases isDst : i = t
    · subst isDst
      rw [if_pos rfl, srcThere, dstThere]
      rfl
    · rw [if_neg isDst]
      by_cases isSrc : i = s
      · subst isSrc
        rw [if_pos rfl, srcThere, dstThere]
        rfl
      · have other : ∀ {j : Nat} {d : String}, dims[j]? = some d → i ≠ j → dims[i] ≠ d := by
          intro j d there apart same
          have here : dims[i]? = dims[j]? := by rw [there, List.getElem?_eq_getElem bound, same]
          exact apart ((List.getElem?_inj bound nodup).mp here)
        rw [if_neg isSrc, List.getElem?_eq_getElem bound, Option.map_some,
          Equiv.swap_apply_of_ne_of_ne (other srcThere isSrc) (other dstThere isDst)]
  · rw [List.getElem?_eq_none (by omega), List.getElem?_eq_none (by simp [switched]; omega)]

/-- A space with the same domains in another order. -/
structure Reordered (space new_space : Space L) : Prop where
  manager : new_space.manager = space.manager
  dims : new_space.all_dimensions_list.Perm space.all_dimensions_list

/-- A well-formed set over some order of the dimensions that has the points of another one. -/
structure SameSet (space : Space L) (h : CanonicalHyperCubeSet L) (r : Space L × CanonicalHyperCubeSet L) :
    Prop where
  reordered : Reordered space r.1
  wellLayered : WellLayered r.1 r.2
  points : ∀ p, Point space p → (Has r.2 p ↔ Has h p)

theorem ofOrder_spec (perm : dims.Perm space.all_dimensions_list) :
    Returns (ofOrder space dims) fun new_space =>
      new_space.all_dimensions_list = dims ∧ Reordered space new_space := by
  unfold ofOrder
  rw [dif_pos perm]
  exact returns_pure ⟨rfl, rfl, perm⟩

variable {new_space : Space L}

theorem reordered_domain (reordered : Reordered space new_space) (d : String) :
    new_space.domain d = space.domain d := by
  unfold Space.domain
  rw [reordered.manager]

theorem reordered_point (reordered : Reordered space new_space) {p : String → Item} :
    Point new_space p ↔ Point space p := by
  unfold Point
  simp only [reordered_domain reordered, reordered.dims.mem_iff]

/-- The new active dimensions are the old ones. -/
theorem newActive_perm (wellLayered : WellLayered space self) (reordered : Reordered space new_space) :
    (new_space.all_dimensions_list.filter (· ∈ self.active_dimensions)).Perm self.active_dimensions := by
  apply (List.perm_ext_iff_of_nodup (new_space.nodup.filter _)
    (space.nodup.sublist wellLayered.ordered)).mpr
  intro d
  rw [List.mem_filter, decide_eq_true_eq]
  exact and_iff_right_of_imp fun member => reordered.dims.mem_iff.mpr (wellLayered.ordered.subset member)

/-- A cube in the new order fits the new space. -/
theorem newCube_fits (wellLayered : WellLayered space self) (active : self.active_dimensions ≠ [])
    (reordered : Reordered space new_space) {cube new_cube : List (LayerElem L)}
    (isCube : IsCube self.active_dimensions self cube)
    (sameLength : new_cube.length = (new_space.all_dimensions_list.filter (· ∈ self.active_dimensions)).length)
    (moved : ∀ value d, (value, d) ∈ new_cube.zip (new_space.all_dimensions_list.filter
      (· ∈ self.active_dimensions)) ↔ (value, d) ∈ cube.zip self.active_dimensions) :
    CubeFits new_space new_cube (new_space.all_dimensions_list.filter (· ∈ self.active_dimensions)) := by
  refine ⟨List.filter_sublist, List.forall₂_iff_zip.mpr ⟨sameLength, ?_⟩⟩
  intro value d listed
  have key : Key space d value :=
    (List.forall₂_iff_zip.mp (isCube_keys (wellLayered.layered active) isCube)).2 ((moved value d).mp listed)
  rw [reordered_domain reordered]
  exact ⟨key.shaped, key.within⟩

/-- The loop over the cubes collects their points. -/
theorem collectCubes_spec (wellLayered : WellLayered space self) (active : self.active_dimensions ≠ [])
    (reordered : Reordered space new_space) {places : List Nat} {news : List String}
    (filtered : news = new_space.all_dimensions_list.filter (· ∈ self.active_dimensions))
    (found : ∀ (k : Nat) d, news[k]? = some d → places[k]? = some (self.active_dimensions.idxOf d))
    {cubes : List (List (LayerElem L))} (isCubes : ∀ cube ∈ cubes, IsCube self.active_dimensions self cube) :
    Returns (cubes.foldlM (fun res cube => do
        let new_cube ← reorderListByMap cube places
        res.addCube new_space new_cube (some news)) (init new_space)) fun r =>
      Represents new_space r {p | ∃ cube ∈ cubes, InCube cube self.active_dimensions p} := by
  have perm := newActive_perm wellLayered reordered
  rw [← filtered] at perm
  apply returns_foldlM (fun (before : List (List (LayerElem L))) r =>
    Represents new_space r {p | ∃ cube ∈ before, InCube cube self.active_dimensions p})
  · obtain ⟨canonical, points⟩ : Represents new_space (init new_space) {_p | false = true} :=
      represents_init false
    exact ⟨canonical, fun p point => (points p point).trans (by simp)⟩
  · intro before cube after res whole represents
    have isCube := isCubes cube (whole ▸ List.mem_append_right before List.mem_cons_self)
    have keys := isCube_keys (wellLayered.layered active) isCube
    apply returns_bind (reorderCube_spec (space.nodup.sublist wellLayered.ordered) keys.length_eq
      perm.length_eq (fun d => perm.mem_iff) found)
    intro new_cube ⟨newLength, moved⟩
    have fits : CubeFits new_space new_cube news := by
      rw [filtered] at newLength moved ⊢
      exact newCube_fits wellLayered active reordered isCube newLength moved
    apply returns_mono (addCube_spec represents fun _ => fits)
    intro r ⟨canonical, points⟩
    have sameCube : ∀ p, InCube new_cube news p ↔ InCube cube self.active_dimensions p := fun p =>
      ⟨fun inside entry listed => inside entry ((moved entry.1 entry.2).mpr listed),
        fun inside entry listed => inside entry ((moved entry.1 entry.2).mp listed)⟩
    have nonempty : new_cube ≠ [] := by
      intro none
      rw [none, perm.length_eq] at newLength
      exact active (List.length_eq_zero_iff.mp newLength.symm)
    refine ⟨canonical, fun p point => (points p point).trans ?_⟩
    show ((∃ cube ∈ before, _) ∨ new_cube ≠ [] ∧ InCube new_cube news p) ↔ ∃ cube ∈ before ++ [_], _
    rw [and_iff_right nonempty, sameCube]
    simp only [List.mem_append, List.mem_singleton, or_and_right, exists_or, exists_eq_left]

/-- The order that `reorder_by_switching_src_dst_peers` hands on. -/
theorem switching_eq (src : "src_peers" ∈ space.all_dimensions_list)
    (dst : "dst_peers" ∈ space.all_dimensions_list) :
    reorderBySwitchingSrcDstPeers space self = reorderByDimList space self
      (((List.range space.all_dimensions_list.length).set (space.all_dimensions_list.idxOf "src_peers")
        (space.all_dimensions_list.idxOf "dst_peers")).set (space.all_dimensions_list.idxOf "dst_peers")
          (space.all_dimensions_list.idxOf "src_peers")) := by
  unfold reorderBySwitchingSrcDstPeers
  have srcBound := List.idxOf_lt_length_of_mem src
  have dstBound := List.idxOf_lt_length_of_mem dst
  dsimp only
  rw [indexOf_eq src, ok_bind, indexOf_eq dst, ok_bind, setItem_eq (by simpa using srcBound), ok_bind,
    setItem_eq (by simpa using dstBound), ok_bind]

theorem reorderBySwitching_spec (wellLayered : WellLayered space self) (active : self.active_dimensions ≠ [])
    (src : "src_peers" ∈ space.all_dimensions_list) (dst : "dst_peers" ∈ space.all_dimensions_list) :
    Returns (reorderBySwitchingSrcDstPeers space self) fun r =>
      r.1.all_dimensions_list = switched space.all_dimensions_list ∧ SameSet space self r := by
  rw [switching_eq src dst]
  unfold reorderByDimList
  obtain ⟨_, made, rfl⟩ := switchDimensions_spec space.nodup src dst
  have perm := switched_perm space.nodup src dst
  obtain ⟨⟨places, news⟩, found, filtered, _, placed⟩ :=
    @reorderActive_spec self.active_dimensions _ (perm.nodup_iff.mpr space.nodup)
  obtain ⟨new_space, ordered, dims, reordered⟩ := ofOrder_spec perm
  obtain ⟨cubes, iterated, isCubes⟩ := iter_active wellLayered active
  rw [made, ok_bind, found, ok_bind]
  dsimp only at filtered placed ⊢
  rw [ordered, ok_bind, iterated, ok_bind]
  rw [← dims] at filtered
  apply returns_bind (collectCubes_spec wellLayered active reordered filtered placed
    fun cube listed => (isCubes cube).mp listed)
  intro r ⟨canonical, points⟩
  refine returns_pure ⟨dims, reordered, canonical_wellLayered canonical, fun p point => ?_⟩
  rw [points p ((reordered_point reordered).mpr point)]
  show (∃ cube ∈ cubes, _) ↔ Holds self.active_dimensions self p
  rw [holds_iff_cube]
  exact exists_congr fun cube => and_congr_left' (isCubes cube)

theorem len_spec (wellLayered : WellLayered space self) : Returns (len space self) fun _ => True := by
  unfold len
  by_cases all : self.active_dimensions = []
  · rw [if_pos all]
    exact returns_pure trivial
  · rw [if_neg all]
    apply returns_bind (getCubesListFromLayers_spec (wellLayered.layered all) all
      (active_enough wellLayered.ordered))
    exact fun _ _ => returns_pure trivial

theorem minimize_spec (wellLayered : WellLayered space self) (active : self.active_dimensions ≠ [])
    (src : "src_peers" ∈ space.all_dimensions_list) (dst : "dst_peers" ∈ space.all_dimensions_list) :
    Returns (minimize space self) fun r => SameSet space self r ∧
      ∃ before after, len space self = .ok before ∧ len r.1 r.2 = .ok after ∧ after ≤ before := by
  unfold minimize
  apply returns_bind (reorderBySwitching_spec wellLayered active src dst)
  intro new_props ⟨_, same⟩
  obtain ⟨before, measured, _⟩ := len_spec wellLayered
  obtain ⟨after, measured', _⟩ := len_spec same.wellLayered
  rw [measured, ok_bind, measured', ok_bind]
  apply returns_pure
  by_cases fewer : before ≤ after
  · rw [if_pos fewer]
    have self_reordered : Reordered space space := ⟨rfl, List.Perm.refl _⟩
    exact ⟨⟨self_reordered, wellLayered, fun _ _ => Iff.rfl⟩, before, before, rfl, measured, Nat.le_refl _⟩
  · rw [if_neg fewer]
    exact ⟨same, before, after, rfl, measured', by omega⟩

/-- The cube of the whole space has values for no active dimension. -/
theorem reorderBySwitching_all (all : self.active_dimensions = []) (src : "src_peers" ∈ space.all_dimensions_list)
    (dst : "dst_peers" ∈ space.all_dimensions_list) :
    reorderBySwitchingSrcDstPeers space self = .error .index := by
  rw [switching_eq src dst]
  unfold reorderByDimList
  obtain ⟨_, made, rfl⟩ := switchDimensions_spec space.nodup src dst
  have perm := switched_perm space.nodup src dst
  obtain ⟨⟨places, news⟩, found, _, none, _⟩ :=
    @reorderActive_spec self.active_dimensions _ (perm.nodup_iff.mpr space.nodup)
  obtain ⟨new_space, ordered, _⟩ := ofOrder_spec perm
  rw [made, ok_bind, found, ok_bind]
  dsimp only at none ⊢
  rw [all] at none
  obtain rfl := List.length_eq_zero_iff.mp none
  rw [ordered, ok_bind]
  unfold iter
  rw [if_pos all, entireSpaceCube_spec (List.Sublist.refl _)]
  obtain ⟨d, rest, dims⟩ := List.exists_cons_of_ne_nil space.some_dimension
  rw [dims, List.map_cons, ok_bind, pure_bind, List.foldlM_cons, reorder_nothing]
  rfl

/-- Switching the dimensions of peers and minimizing keep the points of every set but that of all
connections. -/
theorem reorder_minimize_exact (wellLayered : WellLayered space self)
    (src : "src_peers" ∈ space.all_dimensions_list) (dst : "dst_peers" ∈ space.all_dimensions_list) :
    (Returns (reorderBySwitchingSrcDstPeers space self) fun r =>
        r.1.all_dimensions_list = switched space.all_dimensions_list ∧ SameSet space self r) ∧
      (Returns (minimize space self) fun r => SameSet space self r ∧
        ∃ before after, len space self = .ok before ∧ len r.1 r.2 = .ok after ∧ after ≤ before) ↔
      self.active_dimensions ≠ [] := by
  constructor
  · intro ⟨⟨_, run, _⟩, _⟩ all
    rw [reorderBySwitching_all all src dst] at run
    cases run
  · intro active
    exact ⟨reorderBySwitching_spec wellLayered active src dst, minimize_spec wellLayered active src dst⟩

end Switch

section Extremes

/-- Where properties are first built. -/
noncomputable def initSpace : Space (DfaElem WordSet) := (ConnectivitySpace.init WordSet).toSpace

theorem initSpace_peers : "src_peers" ∈ initSpace.all_dimensions_list ∧ "dst_peers" ∈ initSpace.all_dimensions_list := by
  show "src_peers" ∈ allDimensionsList ∧ "dst_peers" ∈ allDimensionsList
  decide

/-- No connections. -/
theorem noConnections_kept :
    (Returns (reorderBySwitchingSrcDstPeers initSpace (init initSpace)) fun r =>
        r.1.all_dimensions_list = switched initSpace.all_dimensions_list ∧ SameSet initSpace (init initSpace) r) ∧
      (Returns (minimize initSpace (init initSpace)) fun r => SameSet initSpace (init initSpace) r ∧
        ∃ before after, len initSpace (init initSpace) = .ok before ∧ len r.1 r.2 = .ok after ∧ after ≤ before) ↔
      (init initSpace).active_dimensions ≠ [] :=
  reorder_minimize_exact (canonical_wellLayered (canonical_nothing initSpace.some_dimension (List.Sublist.refl _)))
    initSpace_peers.1 initSpace_peers.2

/-- All connections. -/
theorem allConnections_raise : WellLayered initSpace (init initSpace true) ∧
    reorderBySwitchingSrcDstPeers initSpace (init initSpace true) = .error .index ∧
    minimize initSpace (init initSpace true) = .error .index := by
  have raises : reorderBySwitchingSrcDstPeers initSpace (init initSpace true) = .error .index :=
    reorderBySwitching_all rfl initSpace_peers.1 initSpace_peers.2
  refine ⟨canonical_wellLayered canonical_all, raises, ?_⟩
  unfold minimize
  rw [raises]
  rfl

end Extremes

end CanonicalHyperCubeSet
end Nca.CoreDS
