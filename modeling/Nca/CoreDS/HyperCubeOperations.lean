import Nca.CoreDS.HyperCubeReduce

/-!
The public operations on canonical hypercube sets: membership, truth value, equality, cubes, and
the three set operations. Subtraction from an empty set is the one that needs care: dimensions
that become active in the empty set get a layer each, and only a subtrahend that covers all their
values takes these layers away again.
-/

namespace Nca.CoreDS
open Lib Python Space

variable {L : Type} [ExactSet L String]

namespace CanonicalHyperCubeSet

variable {space : Space L} {d : String} {ds active new : List String} {layers : Layers L}
  {h h' other : CanonicalHyperCubeSet L} {depth : Nat}

section Membership

theorem checkItem_ok {p : String → Item} (point : Point space p) :
    checkItem space (space.all_dimensions_list.map p) = .ok () := by
  unfold checkItem
  rw [if_neg (by simp), ← List.map_prod_left_eq_zip]
  have each : ∀ ds : List String, ds ⊆ space.all_dimensions_list →
      (ds.map fun d => (d, p d)).forM (checkCoordinate space) = .ok () := by
    intro ds known
    induction ds with
    | nil => rfl
    | cons d ds ih =>
      have member : d ∈ space.all_dimensions_list := known List.mem_cons_self
      have typed := LayerElem.mem_type (point d member)
      have first : checkCoordinate space (d, p d) = .ok () := by
        unfold checkCoordinate
        rw [getType_eq member, ok_bind, ← typed]
        cases p d <;> rfl
      rw [List.map_cons, List.forM_eq_forM, List.forM_cons, first, ok_bind]
      exact ih fun d' inside => known (List.mem_cons_of_mem d inside)
  exact each _ fun _ inside => inside

theorem alignedItem_eq {p : String → Item} (known : active ⊆ space.all_dimensions_list) :
    alignedItem space (space.all_dimensions_list.map p) active = .ok (active.map p) := by
  unfold alignedItem
  by_cases same : space.all_dimensions_list = active
  · rw [if_pos same, ← same]
    rfl
  · rw [if_neg same, ← List.map_prod_left_eq_zip]
    clear same
    induction active with
    | nil => rfl
    | cons d ds ih =>
      have unique : (Dict.keys (space.all_dimensions_list.map fun d => (d, p d))).Nodup := by
        have keys : Dict.keys (space.all_dimensions_list.map fun d => (d, p d)) =
            space.all_dimensions_list := by simp [Dict.keys, Function.comp_def]
        rw [keys]
        exact space.nodup
      have found := Dict.get_of_mem unique
        (List.mem_map_of_mem (known List.mem_cons_self : d ∈ space.all_dimensions_list))
      rw [List.mapM_cons]
      simp only [found]
      rw [show (pure (p d) : Except Failure Item) = .ok (p d) from rfl, ok_bind,
        ih fun d' inside => known (List.mem_cons_of_mem d inside)]
      rfl

theorem findLayer_spec {x : Item} {below : CanonicalHyperCubeSet L → Prop}
    (parts : Parts space d below layers) (typed : x.type = (space.domain d).type) :
    Returns (findLayer x layers) fun found =>
      (found = none → ∀ e ∈ layers, x ∉ e.1) ∧
        ∀ sub, found = some sub → ∃ e ∈ layers, x ∈ e.1 ∧ e.2 = sub := by
  have keys := parts.keys
  clear parts
  induction layers with
  | nil => exact returns_pure ⟨by simp, by simp⟩
  | cons e rest ih =>
    obtain ⟨layer_elem, layer_sub_elem⟩ := e
    unfold findLayer
    refine returns_bind (LayerElem.contains_spec (keys _ List.mem_cons_self).shaped typed) ?_
    intro answer decides
    by_cases hit : answer = true
    · rw [if_pos hit]
      refine returns_pure ⟨nofun, ?_⟩
      rintro sub same
      exact ⟨_, List.mem_cons_self, decides.mp hit, Option.some.inj same⟩
    · rw [if_neg hit]
      refine returns_mono (ih fun e member => keys e (List.mem_cons_of_mem _ member)) ?_
      rintro found ⟨missing, present⟩
      refine ⟨fun none e member => ?_, fun sub same => ?_⟩
      · rcases List.mem_cons.mp member with rfl | later
        · exact fun inside => hit (decides.mpr inside)
        · exact missing none e later
      · obtain ⟨e, member, inside⟩ := present sub same
        exact ⟨e, List.mem_cons_of_mem _ member, inside⟩

theorem contains_layered {p : String → Item} (layered : Layered space ds h) (some : ds ≠ [])
    (known : ds ⊆ space.all_dimensions_list) (point : Point space p) (enough : ds.length ≤ depth) :
    Returns (contains space depth h (space.all_dimensions_list.map p)) fun answer =>
      (answer = true ↔ Holds ds h p) := by
  induction ds generalizing depth h with
  | nil => exact (some rfl).elim
  | cons d ds ih =>
    cases depth with
    | zero => simp at enough
    | succ depth =>
      obtain ⟨layers, rfl, parts⟩ := layered
      rw [List.length_cons] at enough
      have member : d ∈ space.all_dimensions_list := known List.mem_cons_self
      unfold contains
      rw [checkItem_ok point, ok_bind, if_neg (by simp [isAll])]
      cases layers with
      | nil =>
        rw [if_pos (by simp [bool])]
        refine returns_pure (iff_of_false (by simp) (holds_nothing rfl p))
      | cons first rest =>
        rw [if_neg (by simp [bool]), alignedItem_eq known, ok_bind, List.map_cons, item_zero,
          ok_bind]
        have typed := LayerElem.mem_type (point d member)
        refine returns_bind (findLayer_spec parts typed) ?_
        rintro found ⟨missing, present⟩
        cases found with
        | none =>
          refine returns_pure (iff_of_false (by simp) ?_)
          rintro ⟨e, inside, hit, _⟩
          exact missing rfl e inside hit
        | some sub =>
          obtain ⟨e, inside, hit, rfl⟩ := present sub rfl
          have whole : Holds (d :: ds) (mk (d :: ds) (first :: rest)) p ↔ Holds ds e.2 p :=
            layersHold_entry parts inside hit
          dsimp only
          by_cases last : ds = []
          · subst last
            rw [if_pos (by simp [isLastDimension])]
            exact returns_pure (iff_of_true rfl (whole.mpr trivial))
          · rw [if_neg (by simpa [isLastDimension] using last)]
            refine returns_mono (ih (parts.subs e inside) last
              (fun d' member => known (List.mem_cons_of_mem d member)) (by omega)) ?_
            intro answer decides
            rw [decides, whole]

theorem contains_spec {p : String → Item} (canonical : Canonical space h) (point : Point space p) :
    Returns (contains space (maxDepth space) h (space.all_dimensions_list.map p)) fun answer =>
      (answer = true ↔ Has h p) := by
  by_cases all : h.active_dimensions = []
  · rw [canonical.all all, maxDepth, contains, checkItem_ok point]
    exact returns_pure (iff_of_true rfl trivial)
  · refine contains_layered (level_layered (canonical.level all)) all canonical.ordered.subset point ?_
    have := canonical.ordered.length_le
    unfold maxDepth
    omega

end Membership

section Value

/-- A canonical set is the whole space, or empty, or has layers over its active dimensions. -/
theorem canonical_cases (canonical : Canonical space h) :
    h = mk [] [] ∨ (∃ active, active ≠ [] ∧ active.Sublist space.all_dimensions_list ∧
      h = mk active []) ∨ (h.active_dimensions ≠ [] ∧ Sub space h.active_dimensions h) := by
  by_cases all : h.active_dimensions = []
  · exact Or.inl (canonical.all all)
  · have level := canonical.level all
    by_cases none : h.layers = []
    · refine Or.inr (Or.inl ⟨_, all, canonical.ordered, ?_⟩)
      obtain ⟨d, ds, same⟩ := List.exists_cons_of_ne_nil all
      rw [same] at level ⊢
      have shape := (level_mk level).1
      rwa [none] at shape
    · exact Or.inr (Or.inr ⟨all, level, fun _ => none⟩)

omit [ExactSet L String] in
theorem bool_nothing (some : active ≠ []) : (mk active [] : CanonicalHyperCubeSet L).bool = false := by
  simpa [bool] using some

theorem has_nothing (some : active ≠ []) (p : String → Item) :
    ¬ Has (mk active [] : CanonicalHyperCubeSet L) p := by
  obtain ⟨d, ds, rfl⟩ := List.exists_cons_of_ne_nil some
  exact holds_nothing rfl p

theorem sub_bool (sub : Sub space ds h) (some : ds ≠ []) : h.bool = true := by
  obtain ⟨d, ds, rfl⟩ := List.exists_cons_of_ne_nil some
  exact (level_bool sub.1).mpr (sub.2 some)

theorem sub_isAll (sub : Sub space ds h) (some : ds ≠ []) : h.isAll = false := by
  obtain ⟨d, ds, rfl⟩ := List.exists_cons_of_ne_nil some
  obtain ⟨⟨_, rfl, _⟩, _⟩ := sub
  rfl

theorem canonical_sub_point (canonical : Canonical space h)
    (sub : Sub space h.active_dimensions h) : ∃ p, Point space p ∧ Has h p := by
  obtain ⟨q, point⟩ := point_exists space
  obtain ⟨p, pointP, holds, _⟩ := sub_point sub (space.nodup.sublist canonical.ordered)
    canonical.ordered.subset point
  exact ⟨p, pointP, holds⟩

theorem canonical_bool (canonical : Canonical space h) :
    h.bool = true ↔ ∃ p, Point space p ∧ Has h p := by
  rcases canonical_cases canonical with rfl | ⟨active, some, _, rfl⟩ | ⟨some, sub⟩
  · obtain ⟨p, point⟩ := point_exists space
    exact iff_of_true rfl ⟨p, point, trivial⟩
  · rw [bool_nothing some]
    exact iff_of_false (by simp) fun ⟨p, _, has⟩ => has_nothing some p has
  · exact iff_of_true (sub_bool sub some) (canonical_sub_point canonical sub)

/-- A dimension of the space is active exactly when it makes a difference, in a set with points. -/
theorem active_iff (canonical : Canonical space h) (filled : h.bool = true) (d : String) :
    d ∈ h.active_dimensions ↔ ¬ Needless space d h.active_dimensions h := by
  constructor
  · intro member
    refine canonical.minimal (fun none => ?_) d member
    rcases canonical_cases canonical with rfl | ⟨active, some, _, rfl⟩ | ⟨some, sub⟩
    · cases member
    · rw [bool_nothing some] at filled
      cases filled
    · exact sub.2 some none
  · intro needed
    by_contra inactive
    exact needed fun p x _ _ => holds_update inactive

theorem eq_cases (equal : eq (mk active layers) (mk new layers') = true) :
    ((mk active layers).bool = false ∧ (mk new layers').bool = false) ∨
      active = new ∧ layers.length = layers'.length := by
  rw [eq] at equal
  split at equal
  · rename_i both
    rw [Bool.and_eq_true, Bool.not_eq_true', Bool.not_eq_true'] at both
    exact Or.inl both
  · rw [Bool.and_eq_true, Bool.and_eq_true, decide_eq_true_eq, decide_eq_true_eq] at equal
    exact Or.inr equal.1

theorem canonical_mk (canonical : Canonical space h) : h = mk h.active_dimensions h.layers := by
  rcases canonical_cases canonical with rfl | ⟨active, some, _, rfl⟩ | ⟨some, sub⟩
  · rfl
  · rfl
  · obtain ⟨d, ds, same⟩ := List.exists_cons_of_ne_nil some
    rw [same] at sub
    rw [same]
    exact (level_mk sub.1).1

theorem canonical_eq (canonical : Canonical space h) (canonical' : Canonical space h') :
    eq h h' = true ↔ ∀ p, Point space p → (Has h p ↔ Has h' p) := by
  have sameBool : (∀ p, Point space p → (Has h p ↔ Has h' p)) → (h.bool = true ↔ h'.bool = true) := by
    intro same
    rw [canonical_bool canonical, canonical_bool canonical']
    exact exists_congr fun p => and_congr_right fun point => same p point
  have nodup := space.nodup.sublist canonical.ordered
  have known := canonical.ordered.subset
  constructor
  · intro equal p point
    have parts := equal
    rw [canonical_mk canonical, canonical_mk canonical'] at parts
    rcases eq_cases parts with ⟨empty, empty'⟩ | ⟨active, _⟩
    · rw [← canonical_mk canonical, ← Bool.not_eq_true, canonical_bool canonical] at empty
      rw [← canonical_mk canonical', ← Bool.not_eq_true, canonical_bool canonical'] at empty'
      exact iff_of_false (fun has => empty ⟨p, point, has⟩) fun has => empty' ⟨p, point, has⟩
    · unfold Has
      rw [← active]
      by_cases all : h.active_dimensions = []
      · rw [all]
        exact Iff.rfl
      · exact eq_sound (canonical.level all) (active ▸ canonical'.level (active ▸ all)) equal p
  · intro same
    by_cases filled : h.bool = true
    · have filled' := (sameBool same).mp filled
      have active : h.active_dimensions = h'.active_dimensions := by
        have needless : ∀ d, Needless space d h.active_dimensions h ↔
            Needless space d h'.active_dimensions h' := by
          intro d
          refine forall_congr' fun p => forall_congr' fun x => forall_congr' fun point =>
            forall_congr' fun valid => ?_
          exact iff_congr (same _ (point_update point valid)) (same p point)
        rw [← subsetByOrder_self canonical.ordered, ← subsetByOrder_self canonical'.ordered]
        refine subsetByOrder_congr fun d => ?_
        rw [active_iff canonical filled, active_iff canonical' filled', needless]
      by_cases all : h.active_dimensions = []
      · rw [canonical.all all, canonical'.all (active ▸ all)]
        rfl
      · refine eq_complete (canonical.level all) (active ▸ canonical'.level (active ▸ all)) nodup
          known fun p point => ?_
        have points := same p point
        unfold Has at points
        rwa [← active] at points
    · have empty' : ¬ h'.bool = true := fun h => filled ((sameBool same).mpr h)
      rw [Bool.not_eq_true] at filled empty'
      rw [canonical_mk canonical] at filled ⊢
      rw [canonical_mk canonical'] at empty' ⊢
      rw [eq, filled, empty']
      rfl

end Value

section Cubes

/-- A cube that fits the space: values over ordered dimensions, inside the domains. -/
structure CubeFits (space : Space L) (cube : List (LayerElem L)) (cube_dims : List String) :
    Prop where
  ordered : cube_dims.Sublist space.all_dimensions_list
  values : List.Forall₂ (fun value d => LayerElem.Shaped (space.domain d).type value ∧
    ∀ x, x ∈ value → x ∈ space.domain d) cube cube_dims

/-- The pairs of a cube whose value is not the whole domain. -/
def partly (space : Space L) (pairs : List (LayerElem L × String)) : List (LayerElem L × String) :=
  pairs.filter fun entry => decide (space.domain entry.2 ≠ entry.1)

theorem leavesOut_eq {domain value : LayerElem L} (types : value.type = domain.type) :
    leavesOut domain.type domain value = .ok (decide (domain ≠ value)) := by
  cases domain with
  | intervals s => rfl
  | dfa l =>
    cases value with
    | intervals s' => exact nomatch types
    | dfa l' =>
      have same : decide (l' = l) = decide (l = l') := by simp [eq_comm]
      simp only [leavesOut, LayerElem.type, LayerElem.isDfaAllWords, same]
      simp [pure, Except.pure, bind, Except.bind]

theorem reduceCube_spec {pairs : List (LayerElem L × String)}
    (fits : ∀ entry ∈ pairs, entry.2 ∈ space.all_dimensions_list ∧
      LayerElem.Shaped (space.domain entry.2).type entry.1) :
    reduceCube space pairs = .ok (if ∀ entry ∈ pairs, entry.1.bool = true
      then some (partly space pairs) else none) := by
  induction pairs with
  | nil => simp [reduceCube, partly]; rfl
  | cons entry rest ih =>
    obtain ⟨value, d⟩ := entry
    obtain ⟨known, shaped⟩ := fits _ List.mem_cons_self
    unfold reduceCube
    rw [getDomain_eq known, ok_bind, getType_eq known, ok_bind]
    by_cases filled : value.bool = true
    · rw [if_neg (by simp [filled]), leavesOut_eq shaped.type, ok_bind,
        ih fun entry member => fits entry (List.mem_cons_of_mem _ member), ok_bind]
      by_cases all : ∀ entry ∈ rest, entry.1.bool = true
      · have both : ∀ entry ∈ (value, d) :: rest, entry.1.bool = true :=
          List.forall_mem_cons.mpr ⟨filled, all⟩
        have step : partly space ((value, d) :: rest) =
            if decide (space.domain d ≠ value) = true then (value, d) :: partly space rest
            else partly space rest := List.filter_cons
        rw [if_pos all, if_pos both, step]
        rfl
      · have neither : ¬ ∀ entry ∈ (value, d) :: rest, entry.1.bool = true := fun both =>
          all (List.forall_mem_cons.mp both).2
        rw [if_neg all, if_neg neither]
        rfl
    · rw [if_pos (by simpa using filled), if_neg fun all => filled (all _ List.mem_cons_self)]
      rfl

theorem createFromCube_spec {cube : List (LayerElem L)} {cube_dims : List String}
    (some : cube ≠ []) (fits : CubeFits space cube cube_dims) :
    Returns (createFromCube space cube cube_dims) fun r => Canonical space r ∧
      ∀ p, Point space p → (Has r p ↔ InCube cube cube_dims p) := by
  have length := fits.values.length_eq
  have each : ∀ entry ∈ cube.zip cube_dims, entry.2 ∈ space.all_dimensions_list ∧
      LayerElem.Shaped (space.domain entry.2).type entry.1 ∧
      ∀ x, x ∈ entry.1 → x ∈ space.domain entry.2 := by
    intro entry member
    have related := List.forall₂_iff_zip.mp fits.values
    refine ⟨fits.ordered.subset (List.of_mem_zip member).2, ?_⟩
    exact related.2 member
  unfold createFromCube
  rw [assert_bind some, assert_bind length,
    reduceCube_spec fun entry member => ⟨(each entry member).1, (each entry member).2.1⟩, ok_bind]
  by_cases filled : ∀ entry ∈ cube.zip cube_dims, entry.1.bool = true
  · rw [if_pos filled]
    have inCube : ∀ p, Point space p → (InCube cube cube_dims p ↔
        ∀ entry ∈ partly space (cube.zip cube_dims), p entry.2 ∈ entry.1) := by
      intro p point
      constructor
      · intro inside entry member
        exact inside entry (List.mem_of_mem_filter member)
      · intro inside entry member
        by_cases whole : space.domain entry.2 = entry.1
        · exact whole ▸ point entry.2 (each entry member).1
        · exact inside entry (List.mem_filter.mpr ⟨member, by simpa using whole⟩)
    cases kept : partly space (cube.zip cube_dims) with
    | nil =>
      refine returns_pure ⟨canonical_all, fun p point => ?_⟩
      rw [inCube p point, kept]
      simp [Has, Holds, init, active_dimensions]
    | cons first rest =>
      have dims : ((first :: rest).map Prod.snd).Sublist space.all_dimensions_list := by
        rw [← kept]
        refine List.Sublist.trans ?_ fits.ordered
        refine (List.filter_sublist.map Prod.snd).trans ?_
        rw [List.map_snd_zip (by omega)]
      have keys : List.Forall₂ (fun value d => Key space d value)
          ((first :: rest).map Prod.fst) ((first :: rest).map Prod.snd) := by
        rw [List.forall₂_map_left_iff, List.forall₂_map_right_iff, List.forall₂_same]
        intro entry member
        have inside : entry ∈ cube.zip cube_dims :=
          List.mem_of_mem_filter (p := _) (kept ▸ member)
        obtain ⟨_, shaped, within⟩ := each entry inside
        exact ⟨shaped, (LayerElem.bool_iff shaped).mp (filled entry inside), within⟩
      refine returns_mono (createFromCubeAux_spec (by simp) keys) ?_
      rintro r ⟨sub, points⟩
      have active := sub_active sub (by simp : (first :: rest).map Prod.snd ≠ [])
      have zipBack : ((first :: rest).map Prod.fst).zip ((first :: rest).map Prod.snd) =
          first :: rest := by
        rw [List.zip_map', List.map_id'']
        intro entry
        rfl
      have pointsR : ∀ p, Has r p ↔ ∀ entry ∈ first :: rest, p entry.2 ∈ entry.1 := by
        intro p
        unfold Has
        rw [active, points, InCube, zipBack]
      refine ⟨⟨active ▸ dims, fun none => ?_, fun _ => active ▸ sub.1, fun _ d member => ?_⟩, ?_⟩
      · rw [active] at none
        cases none
      · rw [active] at member ⊢
        obtain ⟨entry, inside, rfl⟩ := List.mem_map.mp member
        have left := List.mem_filter.mp (kept.symm ▸ inside : entry ∈ partly space _)
        obtain ⟨known, shaped, within⟩ := each entry left.1
        have differ : space.domain entry.2 ≠ entry.1 := by simpa using left.2
        -- some value of the domain is missing in the cube
        have missing : ∃ x, x ∈ space.domain entry.2 ∧ x ∉ entry.1 := by
          by_contra none
          refine differ (LayerElem.ext (domain_shaped known) shaped fun x => ⟨fun valid => ?_,
            within x⟩)
          by_contra out
          exact none ⟨x, valid, out⟩
        obtain ⟨x, valid, out⟩ := missing
        obtain ⟨q, point⟩ := point_exists space
        obtain ⟨p, pointP, holds, _⟩ := sub_point sub (space.nodup.sublist dims) dims.subset point
        intro needless
        have moved := (needless p x pointP valid).mpr holds
        rw [points, InCube, zipBack] at moved
        have hit := moved entry inside
        rw [Function.update_self] at hit
        exact out hit
      · intro p point
        rw [pointsR, inCube p point, kept]
  · rw [if_neg filled]
    refine returns_pure ⟨canonical_nothing space.some_dimension (List.Sublist.refl _), ?_⟩
    intro p point
    refine iff_of_false (has_nothing space.some_dimension p) fun inside => filled ?_
    intro entry member
    exact (LayerElem.bool_iff (each entry member).2.1).mpr ⟨_, inside entry member⟩

end Cubes

section Operations

theorem canonical_filled (canonical : Canonical space h) (filled : h.bool = true) :
    Filled space h := by
  refine ⟨canonical.ordered, ?_⟩
  rcases canonical_cases canonical with all | ⟨active, some, _, rfl⟩ | sub
  · exact Or.inl all
  · rw [bool_nothing some] at filled
    cases filled
  · exact Or.inr sub

theorem canonical_isAll (canonical : Canonical space h) :
    h.isAll = true ↔ h = mk [] [] := by
  rcases canonical_cases canonical with rfl | ⟨active, some, _, rfl⟩ | ⟨some, sub⟩
  · exact iff_of_true rfl rfl
  · refine iff_of_false (by simpa [isAll] using some) fun same => ?_
    exact some (congrArg active_dimensions same)
  · refine iff_of_false (by simp [sub_isAll sub some]) fun same => ?_
    exact some (congrArg active_dimensions same)

/-- A recursive operation on aligned operands, followed by the reduction. -/
theorem aligned_spec {op : Nat → CanonicalHyperCubeSet L → CanonicalHyperCubeSet L →
      Except Failure (CanonicalHyperCubeSet L)} {combine : Prop → Prop → Prop}
    (computes : ∀ {ds depth}, ds.Nodup → ds ⊆ space.all_dimensions_list → ds ≠ [] →
      ds.length ≤ depth → Computes space ds (op depth) combine)
    (left : Filled space h) (right : Filled space other)
    (some : h.active_dimensions ++ other.active_dimensions ≠ []) :
    Returns (do
      let (self, other_copy) ← prepareCommonActiveDimensions space h other
      reduceActiveDimensions space (← op (maxDepth space) self other_copy)) fun r =>
      Canonical space r ∧ ∀ p, Point space p → (Has r p ↔ combine (Has h p) (Has other p)) := by
  refine returns_bind (prepareCommonActiveDimensions_spec left right some) ?_
  rintro ⟨self, other_copy⟩ ⟨common, nonempty, ordered, ⟨subS, pointsS⟩, subO, pointsO⟩
  refine returns_bind (computes (space.nodup.sublist ordered) ordered.subset nonempty
    (enough_depth ordered) self other_copy subS.1 subO.1) ?_
  rintro r ⟨level, holds⟩
  refine returns_mono (reduceActiveDimensions_spec level nonempty ordered) ?_
  rintro r ⟨canonical, points⟩
  refine ⟨canonical, fun p point => ?_⟩
  rw [points p point, holds, pointsS p point, pointsO p point]

theorem append_active (left : ¬ h.isAll = true) (canonical : Canonical space h) :
    h.active_dimensions ≠ [] := fun none => left ((canonical_isAll canonical).mpr
  (canonical.all none))

theorem and_spec (left : Canonical space h) (right : Canonical space other) :
    Returns (h.and space other) fun r => Canonical space r ∧
      ∀ p, Point space p → (Has r p ↔ Has h p ∧ Has other p) := by
  have noLeft := canonical_bool left
  have noRight := canonical_bool right
  unfold CanonicalHyperCubeSet.and
  by_cases allRight : other.isAll = true
  · rw [if_pos allRight]
    have whole := (canonical_isAll right).mp allRight
    refine returns_pure ⟨left, fun p _ => ?_⟩
    rw [whole]
    exact (and_iff_left trivial).symm
  · rw [if_neg allRight]
    by_cases filled : h.bool = true ∧ other.bool = true
    · obtain ⟨filledLeft, filledRight⟩ := filled
      rw [if_neg (by simp [filledLeft, filledRight])]
      by_cases allLeft : h.isAll = true
      · rw [if_pos allLeft]
        have whole := (canonical_isAll left).mp allLeft
        refine returns_pure ⟨right, fun p _ => ?_⟩
        rw [whole]
        exact (and_iff_right trivial).symm
      · rw [if_neg allLeft]
        exact aligned_spec andAux_spec (canonical_filled left filledLeft)
          (canonical_filled right filledRight)
          (List.append_ne_nil_of_left_ne_nil (append_active allLeft left) _)
    · rw [if_pos (by
        rw [Bool.or_eq_true, Bool.not_eq_true', Bool.not_eq_true']
        by_contra none
        rw [not_or, Bool.not_eq_false, Bool.not_eq_false] at none
        exact filled ⟨none.2, none.1⟩)]
      refine returns_pure ⟨canonical_nothing space.some_dimension (List.Sublist.refl _), ?_⟩
      intro p point
      refine iff_of_false (has_nothing space.some_dimension p) ?_
      rintro ⟨hasLeft, hasRight⟩
      exact filled ⟨noLeft.mpr ⟨p, point, hasLeft⟩, noRight.mpr ⟨p, point, hasRight⟩⟩

theorem or_spec (left : Canonical space h) (right : Canonical space other) :
    Returns (h.or space other) fun r => Canonical space r ∧
      ∀ p, Point space p → (Has r p ↔ Has h p ∨ Has other p) := by
  have noLeft := canonical_bool left
  have noRight := canonical_bool right
  unfold CanonicalHyperCubeSet.or
  by_cases all : other.isAll = true ∨ h.isAll = true
  · rw [if_pos (by simpa using all)]
    refine returns_pure ⟨canonical_all, fun p _ => iff_of_true trivial ?_⟩
    rcases all with allRight | allLeft
    · rw [(canonical_isAll right).mp allRight]
      exact Or.inr trivial
    · rw [(canonical_isAll left).mp allLeft]
      exact Or.inl trivial
  · rw [if_neg (by simpa using all)]
    obtain ⟨_, partLeft⟩ := not_or.mp all
    by_cases filledRight : other.bool = true
    · rw [if_neg (by simp [filledRight])]
      by_cases filledLeft : h.bool = true
      · rw [if_neg (by simp [filledLeft])]
        exact aligned_spec orAux_spec (canonical_filled left filledLeft)
          (canonical_filled right filledRight)
          (List.append_ne_nil_of_left_ne_nil (append_active partLeft left) _)
      · rw [if_pos (by simpa using filledLeft)]
        refine returns_pure ⟨right, fun p point => ?_⟩
        exact (or_iff_right fun has => filledLeft (noLeft.mpr ⟨p, point, has⟩)).symm
    · rw [if_pos (by simpa using filledRight)]
      refine returns_pure ⟨left, fun p point => ?_⟩
      exact (or_iff_left fun has => filledRight (noRight.mpr ⟨p, point, has⟩)).symm

end Operations

section Hollow

/-- An empty set after the dimensions `before` became active in it: a layer over the whole domain
for each of them, and no layer below. -/
def Hollow (space : Space L) : List String → List String → CanonicalHyperCubeSet L → Prop
  | [], ds, h => h = mk ds []
  | d :: before, ds, h => ∃ rest sub, ds = d :: rest ∧
      h = mk (d :: rest) [(space.domain d, sub)] ∧ Hollow space before rest sub

theorem build_hollow {a : String} {as : List String} (sublist : (a :: as).Sublist new)
    (nodup : new.Nodup) (known : new ⊆ space.all_dimensions_list) :
    Returns (buildNewActiveDimensions space new (mk (a :: as) [])) fun r =>
      ∃ before after, new = before ++ a :: after ∧ Hollow space before new r := by
  induction new with
  | nil => exact nomatch sublist
  | cons n rest ih =>
    obtain ⟨_, nodupRest⟩ := List.nodup_cons.mp nodup
    have knownRest : rest ⊆ space.all_dimensions_list := fun d inside =>
      known (List.mem_cons_of_mem n inside)
    unfold buildNewActiveDimensions
    rw [assert_bind sublist.subset]
    by_cases done : a :: as = n :: rest
    · rw [if_pos done]
      refine returns_pure ⟨[], rest, by rw [(List.cons.inj done).1]; rfl, ?_⟩
      rw [done]
      rfl
    · rw [if_neg done, item_zero, ok_bind]
      by_cases same : a = n
      · subst same
        rw [if_pos rfl]
        by_cases last : as = []
        · subst last
          obtain ⟨next, others, rfl⟩ := List.exists_cons_of_ne_nil
            (fun none => done (none ▸ rfl) : rest ≠ [])
          have knownNext : next ∈ space.all_dimensions_list := knownRest List.mem_cons_self
          have wide := single_level (domain_key knownNext) sub_emptyInterval
          rw [if_neg (by simp [isLastDimension]), item_zero, ok_bind, getDomain_eq knownNext,
            ok_bind]
          refine returns_bind (buildNewActiveDimensions_spec wide (List.cons_ne_nil _ _)
            (List.singleton_sublist.mpr List.mem_cons_self) nodupRest knownRest) ?_
          intro sub_elem _
          exact returns_pure ⟨[], _, rfl, rfl⟩
        · rw [if_pos (by simpa [isLastDimension] using last)]
          exact returns_pure ⟨[], _, rfl, rfl⟩
      · have knownHead : n ∈ space.all_dimensions_list := known List.mem_cons_self
        have inner := sublist_tail (fun h => same h.symm) sublist
        rw [if_neg same, getDomain_eq knownHead, ok_bind]
        refine returns_bind (ih inner nodupRest knownRest) ?_
        rintro sub_elem ⟨before, after, rfl, hollow⟩
        exact returns_pure ⟨n :: before, after, rfl, _, _, rfl, rfl, hollow⟩

/-- Whatever the values before, some point of the set has them. -/
def CoversBefore (space : Space L) (before ds : List String) (h : CanonicalHyperCubeSet L) : Prop :=
  ∀ p, Point space p → ∃ q, Point space q ∧ Holds ds h q ∧ ∀ d ∈ before, q d = p d

/-- Below a key, the values of the dimensions that follow are covered as well. -/
theorem coversBefore_below {before : List String} (parts : Parts space d (Sub space ds) layers)
    (covers : CoversBefore space (d :: before) (d :: ds) (mk (d :: ds) layers))
    (fresh : d ∉ before) {e : LayerElem L × CanonicalHyperCubeSet L} (member : e ∈ layers) :
    CoversBefore space before ds e.2 := by
  intro p point
  have key := parts.keys e member
  obtain ⟨x, inside⟩ := key.some
  obtain ⟨q, pointQ, ⟨e', member', hit, holds⟩, agree⟩ :=
    covers _ (point_update point (key.within x inside))
  have here : q d = x := by
    rw [agree d List.mem_cons_self, Function.update_self]
  rw [here] at hit
  rw [entry_unique parts member member' inside hit]
  refine ⟨q, pointQ, holds, fun d' member => ?_⟩
  have other : d' ≠ d := fun same => fresh (same ▸ member)
  rw [agree d' (List.mem_cons_of_mem d member), Function.update_of_ne other]

/-- A subtrahend that covers the added dimensions takes all their layers away. -/
theorem subAux_hollow {a : String} {before after : List String} (nodup : ds.Nodup)
    (whole : ds = before ++ a :: after) (known : ds ⊆ space.all_dimensions_list)
    (hollow : Hollow space before ds h) (sub : Sub space ds other)
    (covers : CoversBefore space before ds other) (enough : ds.length ≤ depth) :
    subAux depth h other = .ok (mk ds []) := by
  induction before generalizing ds depth h other with
  | nil =>
    obtain rfl : h = mk ds [] := hollow
    subst whole
    obtain ⟨shape, _, _⟩ := level_mk sub.1
    cases depth with
    | zero => simp at enough
    | succ depth =>
      rw [shape]
      unfold subAux
      rw [List.nil_append, assert_bind rfl]
      rfl
  | cons d before ih =>
    obtain ⟨rest, inner, rfl, rfl, below⟩ := hollow
    rw [List.cons_append] at whole
    obtain ⟨_, rfl⟩ := List.cons.inj whole
    obtain ⟨⟨right, rfl, parts, _⟩, filled⟩ := sub
    obtain ⟨fresh, nodupRest⟩ := List.nodup_cons.mp nodup
    have knownRest : before ++ a :: after ⊆ space.all_dimensions_list := fun d' inside =>
      known (List.mem_cons_of_mem d inside)
    have domain := domain_key (known List.mem_cons_self)
    have more : before ++ a :: after ≠ [] := by simp
    cases depth with
    | zero => simp at enough
    | succ depth =>
      rw [List.length_cons] at enough
      have inner_eq : ∀ e ∈ right, subAux depth inner e.2 = .ok (mk (before ++ a :: after) []) := by
        intro e member
        refine ih nodupRest rfl knownRest below (parts.subs e member) ?_ (by omega)
        exact coversBefore_below parts covers (fun h => fresh (List.mem_append_left _ h)) member
      have loop : Returns (right.foldlM (fun acc other_entry =>
          subInner (isLastDimension (d :: (before ++ a :: after))) (space.domain d) other_entry.1
            (subAux depth inner other_entry.2) acc) (([] : Layers L), space.domain d))
          fun acc => acc.1 = [] ∧ Remaining space d (space.domain d, inner) right acc.2 := by
        refine returns_foldlM (fun done (acc : Layers L × LayerElem L) => acc.1 = [] ∧
          Remaining space d (space.domain d, inner) done acc.2) ?_ ?_
        · exact ⟨rfl, domain.shaped, by simp [Within]⟩
        · rintro done e tail acc whole ⟨none, remaining⟩
          have member : e ∈ right := by simp [whole]
          unfold subInner
          refine returns_bind (LayerElem.and_spec domain.shaped (parts.keys e member).shaped) ?_
          rintro g ⟨shaped, members⟩
          by_cases some : g.bool = true
          · rw [if_neg (by simp [some])]
            refine returns_bind (remaining_sub remaining shaped members) ?_
            intro kept remaining
            rw [if_neg (by simp [isLastDimension]), inner_eq e member, ok_bind,
              if_neg (by simp [bool_nothing more])]
            exact returns_pure ⟨none, remaining⟩
          · rw [if_pos (by simpa using some)]
            rw [Bool.not_eq_true] at some
            refine returns_pure ⟨none, remaining_skip remaining fun x left right => ?_⟩
            exact (LayerElem.bool_eq_false shaped).mp some x ((members x).mpr ⟨left, right⟩)
      obtain ⟨acc, run, none, remaining⟩ := loop
      have covered : acc.2.bool = false := by
        rw [LayerElem.bool_eq_false remaining.shaped]
        intro x inside
        obtain ⟨valid, out⟩ := (remaining.members x).mp inside
        obtain ⟨q, point⟩ := point_exists space
        obtain ⟨r, _, ⟨e, member, hit, _⟩, agree⟩ := covers _ (point_update point valid)
        rw [agree d List.mem_cons_self, Function.update_self] at hit
        exact out ⟨e, member, hit⟩
      unfold subAux
      rw [assert_bind rfl, List.foldlM_cons]
      dsimp only
      rw [run, ok_bind, if_neg (by simp [covered]), none]
      rfl

/-- The dimensions of the space before the first active one. -/
def dimensionsBefore (space : Space L) (h : CanonicalHyperCubeSet L) : List String :=
  space.all_dimensions_list.takeWhile fun d => decide (h.active_dimensions.head? ≠ some d)

/-- When the minuend is empty and the subtrahend is not: whatever the values of the dimensions
before the first active one of the minuend, some point of the subtrahend has them. -/
def SubtractionCovers (space : Space L) (h : CanonicalHyperCubeSet L)
    (subtrahend : (String → Item) → Prop) : Prop :=
  h.bool = false → (∃ p, Point space p ∧ subtrahend p) → ∀ p, Point space p →
    ∃ q, Point space q ∧ subtrahend q ∧ ∀ d ∈ dimensionsBefore space h, q d = p d

theorem subtractionCovers_congr {S T : (String → Item) → Prop}
    (same : ∀ p, Point space p → (S p ↔ T p)) (covers : SubtractionCovers space h S) :
    SubtractionCovers space h T := by
  rintro empty ⟨t, pointT, inT⟩ p point
  obtain ⟨q, pointQ, inS, agree⟩ := covers empty ⟨t, pointT, (same t pointT).mpr inT⟩ p point
  exact ⟨q, pointQ, (same q pointQ).mp inS, agree⟩

theorem mem_takeWhile {a : String} {before after dims : List String}
    (sublist : (before ++ a :: after).Sublist dims) (nodup : dims.Nodup) (member : d ∈ before) :
    d ∈ dims.takeWhile fun d => decide (some a ≠ some d) := by
  induction dims generalizing before with
  | nil =>
    have none := List.sublist_nil.mp sublist
    simp at none
  | cons x xs ih =>
    obtain ⟨fresh, rest⟩ := List.nodup_cons.mp nodup
    obtain ⟨b, before, rfl⟩ := List.exists_cons_of_ne_nil (List.ne_nil_of_mem member)
    rw [List.cons_append] at sublist
    have other : a ≠ x := by
      rintro rfl
      cases sublist with
      | cons _ inner => exact fresh (inner.subset (by simp))
      | cons_cons _ inner => exact fresh (inner.subset (by simp))
    rw [List.takeWhile_cons_of_pos (by simpa using other)]
    cases sublist with
    | cons _ inner =>
      rw [← List.cons_append] at inner
      exact List.mem_cons_of_mem x (ih inner rest member)
    | cons_cons _ inner =>
      rcases List.mem_cons.mp member with rfl | later
      · exact List.mem_cons_self
      · exact List.mem_cons_of_mem _ (ih inner rest later)

theorem setActiveDimensions_hollow {a : String} {as names : List String}
    (ordered : (a :: as).Sublist space.all_dimensions_list) :
    Returns (setActiveDimensions space names (mk (a :: as) [])) fun r => ∃ before after,
      getDimensionsSubsetByOrder space ((a :: as) ++ names) = before ++ a :: after ∧
      Hollow space before (getDimensionsSubsetByOrder space ((a :: as) ++ names)) r := by
  have sorted := subsetByOrder_sublist space ((a :: as) ++ names)
  unfold setActiveDimensions
  by_cases within : names ⊆ (mk (a :: as) [] : CanonicalHyperCubeSet L).active_dimensions
  · rw [if_pos within]
    have same : getDimensionsSubsetByOrder space ((a :: as) ++ names) = a :: as := by
      refine (subsetByOrder_congr fun d => ?_).trans (subsetByOrder_self ordered)
      rw [List.mem_append]
      exact or_iff_left_of_imp fun member => within member
    rw [same]
    exact returns_pure ⟨[], as, rfl, rfl⟩
  · rw [if_neg within]
    dsimp only
    rw [active_mk, if_neg (List.cons_ne_nil a as)]
    refine build_hollow ?_ (space.nodup.sublist sorted) sorted.subset
    refine sublist_of_subset space.nodup ordered sorted fun d member => ?_
    exact mem_subsetByOrder.mpr ⟨ordered.subset member, List.mem_append_left _ member⟩

theorem prepareCommonActiveDimensions_hollow {a : String} {as : List String}
    (ordered : (a :: as).Sublist space.all_dimensions_list) (right : Filled space other) :
    Returns (prepareCommonActiveDimensions space (mk (a :: as) []) other) fun pair =>
      ∃ before after common, common = before ++ a :: after ∧
        common.Sublist space.all_dimensions_list ∧ Hollow space before common pair.1 ∧
        Sub space common pair.2 ∧ ∀ p, Point space p → (Holds common pair.2 p ↔ Has other p) := by
  unfold prepareCommonActiveDimensions
  by_cases same : (mk (a :: as) [] : CanonicalHyperCubeSet L).active_dimensions =
      other.active_dimensions
  · rw [if_pos same]
    rcases right.2 with rfl | ⟨_, sub⟩
    · exact nomatch same
    · refine returns_pure ⟨[], as, a :: as, rfl, ordered, rfl, ?_⟩
      change a :: as = other.active_dimensions at same
      rw [same]
      exact ⟨sub, fun _ _ => Iff.rfl⟩
  · rw [if_neg same]
    change Returns (do
      let self ← setActiveDimensions space ((a :: as) ++ other.active_dimensions) (mk (a :: as) [])
      if (a :: as) ++ other.active_dimensions ⊆ other.active_dimensions then pure (self, other)
      else do
        let other_copy ← setActiveDimensions space ((a :: as) ++ other.active_dimensions) other
        pure (self, other_copy)) _
    generalize required_eq : (a :: as) ++ other.active_dimensions = required
    have common_eq : getDimensionsSubsetByOrder space ((a :: as) ++ required) =
        getDimensionsSubsetByOrder space required :=
      subsetByOrder_congr fun d => by
        rw [← required_eq]
        simp only [List.mem_append]
        tauto
    have other_eq : getDimensionsSubsetByOrder space (other.active_dimensions ++ required) =
        getDimensionsSubsetByOrder space required :=
      subsetByOrder_congr fun d => by
        rw [← required_eq]
        simp only [List.mem_append]
        tauto
    have sorted := subsetByOrder_sublist space required
    refine returns_bind (setActiveDimensions_hollow ordered) ?_
    rw [common_eq]
    rintro self ⟨before, after, whole, hollow⟩
    have some : getDimensionsSubsetByOrder space required ≠ [] := by
      rw [whole]
      simp
    by_cases covered : required ⊆ other.active_dimensions
    · rw [if_pos covered]
      have whole' : getDimensionsSubsetByOrder space required = other.active_dimensions := by
        refine (subsetByOrder_congr fun d => ⟨fun member => covered member, fun member => ?_⟩).trans
          (subsetByOrder_self right.1)
        rw [← required_eq]
        exact List.mem_append_right _ member
      refine returns_pure ⟨before, after, _, whole, sorted, hollow, ?_⟩
      rcases right.2 with rfl | ⟨_, sub⟩
      · exact (some whole').elim
      · rw [whole']
        exact ⟨sub, fun _ _ => Iff.rfl⟩
    · rw [if_neg covered]
      have second := setActiveDimensions_spec required right (other_eq ▸ some)
      rw [other_eq] at second
      refine returns_bind second ?_
      rintro other_copy ⟨sub, points⟩
      exact returns_pure ⟨before, after, _, whole, sorted, hollow, sub, points⟩

/-- Subtraction from an empty set leaves it empty, when the subtrahend covers the values of all
dimensions that precede. -/
theorem sub_from_nothing (some : active ≠ []) (ordered : active.Sublist space.all_dimensions_list)
    (right : Canonical space other) (filled : other.bool = true)
    (covers : SubtractionCovers space (mk active []) (Has other)) :
    Returns (do
      let (self, other_copy) ← prepareCommonActiveDimensions space (mk active []) other
      reduceActiveDimensions space (← subAux (maxDepth space) self other_copy)) fun r =>
      ∃ common, common ≠ [] ∧ common.Sublist space.all_dimensions_list ∧ r = mk common [] := by
  have covered := covers (bool_nothing some) ((canonical_bool right).mp filled)
  obtain ⟨a, as, rfl⟩ := List.exists_cons_of_ne_nil some
  refine returns_bind (prepareCommonActiveDimensions_hollow ordered
    (canonical_filled right filled)) ?_
  rintro ⟨self, other_copy⟩ ⟨before, after, common, whole, sorted, hollow, sub, points⟩
  have nonempty : common ≠ [] := by
    rw [whole]
    simp
  have coversCommon : CoversBefore space before common other_copy := by
    intro p point
    obtain ⟨q, pointQ, has, agree⟩ := covered p point
    refine ⟨q, pointQ, (points q pointQ).mpr has, fun d member => agree d ?_⟩
    exact mem_takeWhile (whole ▸ sorted) space.nodup member
  dsimp only
  rw [subAux_hollow (space.nodup.sublist sorted) whole sorted.subset hollow sub coversCommon
    (enough_depth sorted), ok_bind]
  unfold reduceActiveDimensions
  rw [if_pos (by simp [bool_nothing nonempty])]
  exact returns_pure ⟨common, nonempty, sorted, rfl⟩

theorem sub_spec (left : Canonical space h) (right : Canonical space other)
    (covers : SubtractionCovers space h (Has other)) :
    Returns (h.sub space other) fun r => Canonical space r ∧
      ∀ p, Point space p → (Has r p ↔ Has h p ∧ ¬ Has other p) := by
  have noLeft := canonical_bool left
  have noRight := canonical_bool right
  have nothing : ∀ {active}, active ≠ [] → active.Sublist space.all_dimensions_list →
      SubtractionCovers space (mk active []) (Has other) → other.bool = true →
      (∀ p, Point space p → ¬ (Has h p ∧ ¬ Has other p)) →
      Returns (do
        let (self, other_copy) ← prepareCommonActiveDimensions space (mk active []) other
        reduceActiveDimensions space (← subAux (maxDepth space) self other_copy)) fun r =>
        Canonical space r ∧ ∀ p, Point space p → (Has r p ↔ Has h p ∧ ¬ Has other p) := by
    intro active some ordered covers filled none
    refine returns_mono (sub_from_nothing some ordered right filled covers) ?_
    rintro r ⟨common, nonempty, sorted, rfl⟩
    exact ⟨canonical_nothing nonempty sorted, fun p point =>
      iff_of_false (has_nothing nonempty p) (none p point)⟩
  unfold CanonicalHyperCubeSet.sub
  dsimp only
  by_cases filled : other.bool = true
  · rw [if_neg (by simp [filled])]
    by_cases all : other.isAll = true
    · rw [if_pos all]
      have whole := (canonical_isAll right).mp all
      have has : ∀ p, Has other p := fun p => by
        rw [whole]
        exact trivial
      refine nothing space.some_dimension (List.Sublist.refl _) ?_ filled fun p _ both =>
        both.2 (has p)
      exact fun _ _ p point => ⟨p, point, has p, fun _ _ => rfl⟩
    · rw [if_neg all]
      by_cases filledLeft : h.bool = true
      · exact aligned_spec subAux_spec (canonical_filled left filledLeft)
          (canonical_filled right filled)
          (List.append_ne_nil_of_right_ne_nil _ (append_active all right))
      · rcases canonical_cases left with rfl | ⟨active, some, ordered, rfl⟩ | ⟨some, sub⟩
        · exact (filledLeft rfl).elim
        · exact nothing some ordered covers filled fun p _ both => has_nothing some p both.1
        · exact (filledLeft (sub_bool sub some)).elim
  · rw [if_pos (by simpa using filled)]
    have part : ¬ other.isAll = true := by
      intro all
      rw [(canonical_isAll right).mp all] at filled
      exact filled rfl
    rw [if_neg part]
    refine returns_pure ⟨left, fun p point => ?_⟩
    exact (and_iff_left fun has => filled (noRight.mpr ⟨p, point, has⟩)).symm

end Hollow

end CanonicalHyperCubeSet
end Nca.CoreDS
