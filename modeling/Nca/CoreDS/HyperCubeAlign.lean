import Nca.CoreDS.HyperCubeDimensions

/-!
Aligning operands. Cubes become hypercube sets, and a set takes on further active dimensions, in
which it admits the whole domain.
-/

namespace Nca.CoreDS
open Lib Python Space

variable {L : Type} [ExactSet L String]

namespace CanonicalHyperCubeSet

variable {space : Space L} {d : String} {ds active new : List String} {layers : Layers L}
  {h : CanonicalHyperCubeSet L}

theorem single_level {k : LayerElem L} {sub : CanonicalHyperCubeSet L} (key : Key space d k)
    (below : Sub space ds sub) : Sub space (d :: ds) (mk (d :: ds) [(k, sub)]) := by
  refine ⟨⟨_, rfl, ⟨?_, ?_, by simp⟩, by simp⟩, by simp [CanonicalHyperCubeSet.layers]⟩
  · intro e member
    rw [List.mem_singleton.mp member]
    exact key
  · intro e member
    rw [List.mem_singleton.mp member]
    exact below

theorem single_holds {k : LayerElem L} {sub : CanonicalHyperCubeSet L} {p : String → Item} :
    Holds (d :: ds) (mk active [(k, sub)]) p ↔ p d ∈ k ∧ Holds ds sub p := by
  simp [Holds, CanonicalHyperCubeSet.layers]

/-- The point lies in the cube: each of its coordinates in the cube's value. -/
def InCube (cube : List (LayerElem L)) (cube_dims : List String) (p : String → Item) : Prop :=
  ∀ entry ∈ cube.zip cube_dims, p entry.2 ∈ entry.1

theorem createFromCubeAux_spec {cube : List (LayerElem L)} (some : cube ≠ [])
    (keys : List.Forall₂ (fun value d => Key space d value) cube ds) :
    Returns (createFromCubeAux cube ds) fun r => Sub space ds r ∧
      ∀ p, Holds ds r p ↔ InCube cube ds p := by
  induction keys with
  | nil => exact (some rfl).elim
  | @cons value d cube ds key rest ih =>
    cases rest with
    | nil =>
      refine returns_pure ⟨single_level key sub_emptyInterval, fun p => ?_⟩
      rw [single_holds]
      simp [Holds, InCube]
    | cons key' rest' =>
      unfold createFromCubeAux
      refine returns_bind (ih (List.cons_ne_nil _ _)) ?_
      rintro sub ⟨below, holds⟩
      refine returns_pure ⟨single_level key below, fun p => ?_⟩
      rw [single_holds, holds]
      simp [InCube]

theorem buildNewActiveDimensions_spec (sub : Sub space active h) (some : active ≠ [])
    (sublist : active.Sublist new) (nodup : new.Nodup) (known : new ⊆ space.all_dimensions_list) :
    Returns (buildNewActiveDimensions space new h) fun r => Sub space new r ∧
      ∀ p, Point space p → (Holds new r p ↔ Holds active h p) := by
  induction new generalizing active h with
  | nil => exact (some (List.sublist_nil.mp sublist)).elim
  | cons n rest ih =>
    obtain ⟨a, as, rfl⟩ := List.exists_cons_of_ne_nil some
    obtain ⟨shape, parts, apart⟩ := level_mk sub.1
    obtain ⟨fresh, nodupRest⟩ := List.nodup_cons.mp nodup
    have knownRest : rest ⊆ space.all_dimensions_list := fun d inside =>
      known (List.mem_cons_of_mem n inside)
    generalize h.layers = layers at shape parts apart
    subst shape
    unfold buildNewActiveDimensions
    rw [assert_bind sublist.subset]
    by_cases done : a :: as = n :: rest
    · rw [if_pos done]
      obtain ⟨rfl, rfl⟩ := List.cons.inj done
      exact returns_pure ⟨sub, fun _ _ => Iff.rfl⟩
    · rw [if_neg done]
      rw [item_zero, ok_bind]
      by_cases same : a = n
      · subst same
        have inner : as.Sublist rest := List.cons_sublist_cons.mp sublist
        have nodupAs : as.Nodup := nodupRest.sublist inner
        have knownAs : as ⊆ space.all_dimensions_list := fun d inside =>
          knownRest (inner.subset inside)
        rw [if_pos rfl]
        by_cases last : as = []
        · subst last
          obtain ⟨next, others, rfl⟩ := List.exists_cons_of_ne_nil
            (fun none => done (none ▸ rfl) : rest ≠ [])
          have knownNext : next ∈ space.all_dimensions_list := knownRest List.mem_cons_self
          have key := domain_key knownNext
          have wide := single_level key sub_emptyInterval
          rw [if_neg (by simp [isLastDimension])]
          rw [item_zero, ok_bind, getDomain_eq knownNext, ok_bind]
          refine returns_bind (ih wide (List.cons_ne_nil _ _)
            (List.singleton_sublist.mpr List.mem_cons_self) nodupRest knownRest) ?_
          rintro sub_elem ⟨below, holds⟩
          refine returns_pure (relayered_sub ?_ nodupAs knownAs nodupRest knownRest sub)
          refine List.forall₂_map_right_iff.mpr (List.forall₂_same.mpr fun e _ => ?_)
          refine ⟨rfl, below, fun p point => ?_⟩
          rw [holds p point, single_holds]
          simpa [Holds] using point next knownNext
        · rw [if_pos (by simpa [isLastDimension] using last)]
          have each : ∀ e ∈ layers, Returns (do
              pure (e.1, ← buildNewActiveDimensions space rest e.2)) fun e' => e'.1 = e.1 ∧
                Sub space rest e'.2 ∧
                ∀ p, Point space p → (Holds rest e'.2 p ↔ Holds as e.2 p) := by
            intro e member
            refine returns_bind (ih (parts.subs e member) last inner nodupRest knownRest) ?_
            rintro sub_elem ⟨below, holds⟩
            exact returns_pure ⟨rfl, below, holds⟩
          refine returns_bind (returns_mapM each) ?_
          intro layers' related
          exact returns_pure (relayered_sub related nodupAs knownAs nodupRest knownRest sub)
      · have knownHead : n ∈ space.all_dimensions_list := known List.mem_cons_self
        have inner := sublist_tail (fun h => same h.symm) sublist
        rw [if_neg same, getDomain_eq knownHead, ok_bind]
        refine returns_bind (ih sub some inner nodupRest knownRest) ?_
        rintro sub_elem ⟨below, holds⟩
        refine returns_pure ⟨single_level (domain_key knownHead) below, fun p point => ?_⟩
        rw [single_holds, holds p point]
        exact and_iff_right (point n knownHead)

theorem subsetByOrder_congr {S T : List String} (same : ∀ d, d ∈ S ↔ d ∈ T) :
    getDimensionsSubsetByOrder space S = getDimensionsSubsetByOrder space T := by
  unfold getDimensionsSubsetByOrder
  simp only [same]

theorem subsetByOrder_self (sublist : active.Sublist space.all_dimensions_list) :
    getDimensionsSubsetByOrder space active = active :=
  sublist_filter space.nodup sublist

theorem entireSpaceCube_spec (sublist : ds.Sublist space.all_dimensions_list) :
    getEntireSpaceCube space ds = .ok (ds.map space.domain) := by
  unfold getEntireSpaceCube
  rw [subsetByOrder_self sublist]
  have known := sublist.subset
  clear sublist
  induction ds with
  | nil => rfl
  | cons d ds ih =>
    rw [List.mapM_cons, getDomain_eq (known List.mem_cons_self), ok_bind,
      ih fun d' inside => known (List.mem_cons_of_mem d inside)]
    rfl

/-- A set with some point: over its active dimensions a sub-cube, or the whole space. -/
def Filled (space : Space L) (h : CanonicalHyperCubeSet L) : Prop :=
  h.active_dimensions.Sublist space.all_dimensions_list ∧
    (h = mk [] [] ∨ h.active_dimensions ≠ [] ∧ Sub space h.active_dimensions h)

/-- The points of a hypercube set. -/
def Has (h : CanonicalHyperCubeSet L) (p : String → Item) : Prop :=
  Holds h.active_dimensions h p

theorem sub_active (sub : Sub space ds h) (some : ds ≠ []) : h.active_dimensions = ds := by
  obtain ⟨d, ds, rfl⟩ := List.exists_cons_of_ne_nil some
  obtain ⟨⟨_, rfl, _⟩, _⟩ := sub
  rfl

theorem setActiveDimensions_spec (names : List String) (filled : Filled space h)
    (some : getDimensionsSubsetByOrder space (h.active_dimensions ++ names) ≠ []) :
    Returns (setActiveDimensions space names h) fun r =>
      Sub space (getDimensionsSubsetByOrder space (h.active_dimensions ++ names)) r ∧
      ∀ p, Point space p →
        (Holds (getDimensionsSubsetByOrder space (h.active_dimensions ++ names)) r p ↔ Has h p) := by
  obtain ⟨sublist, shape⟩ := filled
  have ordered := subsetByOrder_sublist space (h.active_dimensions ++ names)
  unfold setActiveDimensions
  by_cases within : names ⊆ h.active_dimensions
  · rw [if_pos within]
    have same : getDimensionsSubsetByOrder space (h.active_dimensions ++ names) =
        h.active_dimensions := by
      refine (subsetByOrder_congr fun d => ?_).trans (subsetByOrder_self sublist)
      rw [List.mem_append]
      exact or_iff_left_of_imp fun member => within member
    rw [same] at some ⊢
    rcases shape with rfl | ⟨_, sub⟩
    · exact (some rfl).elim
    · exact returns_pure ⟨sub, fun _ _ => Iff.rfl⟩
  · rw [if_neg within]
    rcases shape with rfl | ⟨nonempty, sub⟩
    · have all : (mk [] [] : CanonicalHyperCubeSet L).active_dimensions = [] := rfl
      dsimp only
      rw [if_pos all, entireSpaceCube_spec ordered, ok_bind]
      refine returns_mono (createFromCubeAux_spec (by simpa using some)
        (List.forall₂_map_left_iff.mpr (List.forall₂_same.mpr fun d member =>
          domain_key (ordered.subset member)))) ?_
      rintro r ⟨sub, holds⟩
      refine ⟨sub, fun p point => (holds p).trans (iff_of_true ?_ trivial)⟩
      intro entry member
      rw [← List.map_prod_right_eq_zip] at member
      obtain ⟨d, inside, rfl⟩ := List.mem_map.mp member
      exact point d (ordered.subset inside)
    · dsimp only
      rw [if_neg nonempty]
      refine buildNewActiveDimensions_spec sub nonempty ?_ (space.nodup.sublist ordered)
        ordered.subset
      refine sublist_of_subset space.nodup sublist ordered fun d member => ?_
      exact mem_subsetByOrder.mpr ⟨sublist.subset member, List.mem_append_left _ member⟩

/-- Both operands over the dimensions that are active in one of them. -/
theorem prepareCommonActiveDimensions_spec {other : CanonicalHyperCubeSet L}
    (left : Filled space h) (right : Filled space other)
    (some : h.active_dimensions ++ other.active_dimensions ≠ []) :
    Returns (prepareCommonActiveDimensions space h other) fun pair => ∃ common,
      common ≠ [] ∧ common.Sublist space.all_dimensions_list ∧
      (Sub space common pair.1 ∧ ∀ p, Point space p → (Holds common pair.1 p ↔ Has h p)) ∧
      Sub space common pair.2 ∧ ∀ p, Point space p → (Holds common pair.2 p ↔ Has other p) := by
  unfold prepareCommonActiveDimensions
  by_cases same : h.active_dimensions = other.active_dimensions
  · rw [if_pos same]
    rcases left.2 with rfl | ⟨nonempty, sub⟩
    · change [] = other.active_dimensions at same
      exact (some (by rw [← same]; rfl)).elim
    · rcases right.2 with rfl | ⟨_, sub'⟩
      · exact (nonempty same).elim
      · refine returns_pure ⟨h.active_dimensions, nonempty, left.1, ⟨sub, fun _ _ => Iff.rfl⟩, ?_⟩
        rw [same]
        exact ⟨sub', fun _ _ => Iff.rfl⟩
  · rw [if_neg same]
    let required := h.active_dimensions ++ other.active_dimensions
    let common := getDimensionsSubsetByOrder space required
    have ordered : common.Sublist space.all_dimensions_list :=
      subsetByOrder_sublist space required
    have nonempty : common ≠ [] := by
      obtain ⟨d, rest, whole⟩ := List.exists_cons_of_ne_nil some
      have active : d ∈ required := by
        show d ∈ h.active_dimensions ++ other.active_dimensions
        rw [whole]
        exact List.mem_cons_self
      have known : d ∈ space.all_dimensions_list := by
        rcases List.mem_append.mp active with member | member
        · exact left.1.subset member
        · exact right.1.subset member
      exact List.ne_nil_of_mem (mem_subsetByOrder.mpr ⟨known, active⟩)
    have commonLeft : getDimensionsSubsetByOrder space (h.active_dimensions ++ required) = common :=
      subsetByOrder_congr fun d => by simp [required]
    have commonRight :
        getDimensionsSubsetByOrder space (other.active_dimensions ++ required) = common :=
      subsetByOrder_congr fun d => by
        simp only [required, List.mem_append]
        tauto
    have first := setActiveDimensions_spec required left (commonLeft ▸ nonempty)
    have second := setActiveDimensions_spec required right (commonRight ▸ nonempty)
    rw [commonLeft] at first
    rw [commonRight] at second
    refine returns_bind first ?_
    rintro s ⟨subS, pointsS⟩
    by_cases covered : required ⊆ other.active_dimensions
    · rw [if_pos covered]
      have whole : common = other.active_dimensions := by
        refine (subsetByOrder_congr fun d => ⟨fun member => covered member, fun member => ?_⟩).trans
          (subsetByOrder_self right.1)
        exact List.mem_append_right _ member
      refine returns_pure ⟨common, nonempty, ordered, ⟨subS, pointsS⟩, ?_⟩
      rcases right.2 with rfl | ⟨_, sub'⟩
      · exact (nonempty whole).elim
      · rw [whole]
        exact ⟨sub', fun _ _ => Iff.rfl⟩
    · rw [if_neg covered]
      refine returns_bind second ?_
      rintro o ⟨subO, pointsO⟩
      exact returns_pure ⟨common, nonempty, ordered, ⟨subS, pointsS⟩, subO, pointsO⟩

end CanonicalHyperCubeSet
end Nca.CoreDS
