import Nca.CoreDS.HyperCubeHollow

/-!
Containment of hypercube sets. The recursive walk over both operands answers whether every point
of the first is one of the second, for any two lists of active dimensions, and so agrees with
subtraction.
-/

namespace Nca.CoreDS
open Lib Python Space

variable {L : Type} [ExactSet L String]

namespace CanonicalHyperCubeSet

variable {space : Space L} {d : String} {ds a b : List String} {layers others : Layers L}
  {h o other : CanonicalHyperCubeSet L} {t : DimensionType}

/-- Every point of the first set is a point of the second. -/
def Contained (space : Space L) (a b : List String) (h o : CanonicalHyperCubeSet L) : Prop :=
  ∀ p, Point space p → Holds a h p → Holds b o p

/-- Every point of the space is in the set. -/
def Entire (space : Space L) (ds : List String) (h : CanonicalHyperCubeSet L) : Prop :=
  ∀ p, Point space p → Holds ds h p

theorem inCube_domains (known : ds ⊆ space.all_dimensions_list) {p : String → Item}
    (point : Point space p) : InCube (ds.map space.domain) ds p := by
  intro entry member
  rw [← List.map_prod_right_eq_zip] at member
  obtain ⟨d, inside, rfl⟩ := List.mem_map.mp member
  exact point d (known inside)

theorem isSubElemEntireSubSpace_spec (sub : Sub space ds h) (some : ds ≠ [])
    (ordered : ds.Sublist space.all_dimensions_list) :
    Returns (isSubElemEntireSubSpace space h) fun answer =>
      (answer = true ↔ Entire space ds h) := by
  obtain ⟨d, rest, rfl⟩ := List.exists_cons_of_ne_nil some
  obtain ⟨shape, _⟩ := level_mk sub.1
  have keys : List.Forall₂ (fun value d => Key space d value)
      ((d :: rest).map space.domain) (d :: rest) := by
    rw [List.forall₂_map_left_iff, List.forall₂_same]
    exact fun d' member => domain_key (ordered.subset member)
  rw [shape, isSubElemEntireSubSpace, entireSpaceCube_spec ordered, ok_bind, ← shape]
  refine returns_bind (createFromCubeAux_spec (by simp) keys) ?_
  intro whole ⟨subWhole, points⟩
  refine returns_pure ?_
  rw [eq_iff_samePoints subWhole.1 sub.1 (space.nodup.sublist ordered) ordered.subset]
  have all : ∀ p, Point space p → Holds (d :: rest) whole p := fun p point =>
    (points p).mpr (inCube_domains ordered.subset point)
  constructor
  · exact fun same p point => (same p point).mp (all p point)
  · exact fun entire p point => iff_of_true (all p point) (entire p point)

/-- A set that shares no active dimension with the second is contained in it only if the second
is the entire space. -/
theorem contained_entire (sub : Sub space a h) (nodup : a.Nodup)
    (known : a ⊆ space.all_dimensions_list) (apart : ∀ d ∈ b, d ∉ a) :
    Contained space a b h o ↔ Entire space b o := by
  constructor
  · intro contained p point
    obtain ⟨q, pointQ, holds, outside⟩ := sub_point sub nodup known point
    rw [← holds_congr fun d member => outside d (apart d member)]
    exact contained q pointQ holds
  · exact fun entire p point _ => entire p point

theorem contained_left (parts : Parts space d (Sub space a) layers) (fresh : d ∉ a)
    (inactive : d ∉ b) :
    Contained space (d :: a) b (mk (d :: a) layers) o ↔
      ∀ e ∈ layers, Contained space a b e.2 o := by
  constructor
  · intro contained e member p point holds
    have key := parts.keys e member
    obtain ⟨x, inside⟩ := key.some
    have moved := contained (Function.update p d x) (point_update point (key.within x inside))
      ((holds_at _ parts fresh member inside p).mpr holds)
    exact (holds_update inactive).mp moved
  · intro each p point ⟨e, member, _, holds⟩
    exact each e member p point holds

theorem contained_right (parts : Parts space d (Sub space b) others) (sub : Sub space a h)
    (nodup : a.Nodup) (known : d :: a ⊆ space.all_dimensions_list) (freshB : d ∉ b)
    (inactive : d ∉ a) :
    Contained space a (d :: b) h (mk (d :: b) others) ↔
      (∀ e ∈ others, Contained space a b h e.2) ∧ ∀ x ∈ space.domain d, ∃ e ∈ others, x ∈ e.1 := by
  constructor
  · intro contained
    have moved : ∀ p x, Point space p → x ∈ space.domain d → Holds a h p →
        Holds (d :: b) (mk (d :: b) others) (Function.update p d x) :=
      fun p x point valid holds => contained _ (point_update point valid)
        ((holds_update inactive).mpr holds)
    constructor
    · intro e member p point holds
      have key := parts.keys e member
      obtain ⟨x, inside⟩ := key.some
      rw [← holds_at (d :: b) parts freshB member inside p]
      exact moved p x point (key.within x inside) holds
    · intro x valid
      obtain ⟨q, pointQ⟩ := point_exists space
      obtain ⟨p, point, holds, _⟩ := sub_point sub nodup
        (fun d' member => known (List.mem_cons_of_mem d member)) pointQ
      obtain ⟨e, member, inside, _⟩ := moved p x point valid holds
      rw [Function.update_self] at inside
      exact ⟨e, member, inside⟩
  · intro ⟨each, cover⟩ p point holds
    obtain ⟨e, member, inside⟩ := cover (p d) (point d (known List.mem_cons_self))
    exact ⟨e, member, inside, each e member p point holds⟩

/-- The values of a key lie in keys of the second set, over sub-cubes that contain the first. -/
def KeyContained (space : Space L) (a b : List String) (others : Layers L)
    (e : LayerElem L × CanonicalHyperCubeSet L) : Prop :=
  ∀ x ∈ e.1, ∃ e' ∈ others, x ∈ e'.1 ∧ Contained space a b e.2 e'.2

theorem contained_common (parts : Parts space d (Sub space a) layers)
    (parts' : Parts space d (Sub space b) others) (nodup : (d :: a).Nodup) (fresh : d ∉ b)
    (known : a ⊆ space.all_dimensions_list) :
    Contained space (d :: a) (d :: b) (mk (d :: a) layers) (mk (d :: b) others) ↔
      ∀ e ∈ layers, KeyContained space a b others e := by
  obtain ⟨freshA, rest⟩ := List.nodup_cons.mp nodup
  constructor
  · intro contained e member x inside
    have key := parts.keys e member
    have moved : ∀ p, Point space p → Holds a e.2 p → ∃ e' ∈ others, x ∈ e'.1 ∧ Holds b e'.2 p := by
      intro p point holds
      obtain ⟨e', member', inside', below⟩ := contained (Function.update p d x)
        (point_update point (key.within x inside))
        ((holds_at _ parts freshA member inside p).mpr holds)
      rw [Function.update_self] at inside'
      exact ⟨e', member', inside', (holds_update fresh).mp below⟩
    obtain ⟨q, pointQ⟩ := point_exists space
    obtain ⟨p, point, holds, _⟩ := sub_point (parts.subs e member) rest known pointQ
    obtain ⟨e', member', inside', _⟩ := moved p point holds
    refine ⟨e', member', inside', fun p point holds => ?_⟩
    obtain ⟨e'', member'', inside'', below⟩ := moved p point holds
    rwa [entry_unique parts' member' member'' inside' inside'']
  · intro each p point ⟨e, member, inside, holds⟩
    obtain ⟨e', member', inside', contained⟩ := each e member (p d) inside
    exact ⟨e', member', inside', contained p point holds⟩

theorem getLastDimCubeValue_spec (sub : Sub space [d] h) :
    ∃ value, getLastDimCubeValue h = .ok value ∧ Key space d value ∧
      ∀ p, Holds [d] h p ↔ p d ∈ value := by
  obtain ⟨⟨layers, rfl, parts, distinct⟩, some⟩ := sub
  have one : ∃ e, layers = [e] := by
    cases layers with
    | nil => exact (some (List.cons_ne_nil d []) rfl).elim
    | cons e rest =>
      cases rest with
      | nil => exact ⟨e, rfl⟩
      | cons e' rest =>
        have first : e.2 = emptyInterval := (parts.subs e List.mem_cons_self).1
        have second : e'.2 = emptyInterval := (parts.subs e' (by simp)).1
        have apart := (List.pairwise_cons.mp distinct).1 e' List.mem_cons_self
        rw [first, second] at apart
        cases apart
  obtain ⟨e, rfl⟩ := one
  refine ⟨e.1, rfl, parts.keys e List.mem_cons_self, fun p => ?_⟩
  simp [Holds, CanonicalHyperCubeSet.layers]

/-- The walk of one key over the keys of the second set, which exclude each other. -/
theorem walkLayer_spec {blocked : CanonicalHyperCubeSet L → Except Failure Bool}
    {inside : CanonicalHyperCubeSet L → Prop} {current : LayerElem L}
    (decides : ∀ e ∈ others, Returns (blocked e.2) (· = true ↔ ¬ inside e.2))
    (shaped : ∀ e ∈ others, LayerElem.Shaped t e.1)
    (apart : others.Pairwise fun e e' => ∀ x, x ∈ e.1 → x ∉ e'.1)
    (shapedCurrent : LayerElem.Shaped t current) (filled : ∃ x, x ∈ current) :
    Returns (walkLayer blocked current others) fun r =>
      (r = some true ↔ ∀ x ∈ current, ∃ e ∈ others, x ∈ e.1 ∧ inside e.2) := by
  induction others generalizing current with
  | nil =>
    obtain ⟨x, member⟩ := filled
    refine returns_pure (iff_of_false (by simp) fun all => ?_)
    obtain ⟨e, none, _⟩ := all x member
    cases none
  | cons e rest ih =>
    obtain ⟨other_layer, other_sub_elem⟩ := e
    obtain ⟨headApart, restApart⟩ := List.pairwise_cons.mp apart
    have shapedOther := shaped _ List.mem_cons_self
    have ih := fun {current} => @ih current
      (fun e member => decides e (List.mem_cons_of_mem _ member))
      (fun e member => shaped e (List.mem_cons_of_mem _ member)) restApart
    unfold walkLayer
    refine returns_bind (LayerElem.and_spec shapedCurrent shapedOther) ?_
    intro common ⟨shapedCommon, members⟩
    by_cases meets : common.bool = true
    · rw [if_pos meets]
      obtain ⟨x, shared⟩ := (LayerElem.bool_iff shapedCommon).mp meets
      obtain ⟨inCurrent, inOther⟩ := (members x).mp shared
      refine returns_bind (decides _ List.mem_cons_self) ?_
      intro stop stops
      by_cases good : inside other_sub_elem
      · have passes : ¬ stop = true := fun h => stops.mp h good
        rw [if_neg passes]
        refine returns_bind (LayerElem.sub_spec shapedCurrent shapedCommon) ?_
        intro remaining ⟨shapedRemaining, left⟩
        have covered : ∀ x ∈ current, x ∉ remaining → x ∈ other_layer := by
          intro x member out
          by_contra apart
          exact out ((left x).mpr ⟨member, fun both => apart ((members x).mp both).2⟩)
        by_cases more : remaining.bool = true
        · rw [if_pos more]
          refine returns_mono (ih shapedRemaining
            ((LayerElem.bool_iff shapedRemaining).mp more)) ?_
          intro r answer
          rw [answer]
          constructor
          · intro all x member
            by_cases later : x ∈ remaining
            · obtain ⟨e, inRest, hit⟩ := all x later
              exact ⟨e, List.mem_cons_of_mem _ inRest, hit⟩
            · exact ⟨_, List.mem_cons_self, covered x member later, good⟩
          · intro all x later
            obtain ⟨member, out⟩ := (left x).mp later
            obtain ⟨e, either, hit⟩ := all x member
            rcases List.mem_cons.mp either with rfl | inRest
            · exact (out ((members x).mpr ⟨member, hit.1⟩)).elim
            · exact ⟨e, inRest, hit⟩
        · rw [if_neg more]
          rw [Bool.not_eq_true, LayerElem.bool_eq_false shapedRemaining] at more
          refine returns_pure (iff_of_true rfl fun x member => ?_)
          exact ⟨_, List.mem_cons_self, covered x member (more x), good⟩
      · rw [if_pos (stops.mpr good)]
        refine returns_pure (iff_of_false (by simp) fun all => ?_)
        obtain ⟨e, either, hit, contained⟩ := all x inCurrent
        rcases List.mem_cons.mp either with rfl | inRest
        · exact good contained
        · exact headApart e inRest x inOther hit
    · rw [if_neg meets]
      rw [Bool.not_eq_true, LayerElem.bool_eq_false shapedCommon] at meets
      refine returns_mono (ih shapedCurrent filled) ?_
      intro r answer
      rw [answer]
      refine forall₂_congr fun x member => ?_
      constructor
      · intro ⟨e, inRest, hit⟩
        exact ⟨e, List.mem_cons_of_mem _ inRest, hit⟩
      · intro ⟨e, either, hit⟩
        rcases List.mem_cons.mp either with rfl | inRest
        · exact (meets x ((members x).mpr ⟨member, hit.1⟩)).elim
        · exact ⟨e, inRest, hit⟩

omit [ExactSet L String] in
/-- All keys are counted exactly when all of them are used up. -/
theorem walkLayers_spec
    {walk : LayerElem L × CanonicalHyperCubeSet L → Except Failure (Option Bool)}
    {inside : LayerElem L × CanonicalHyperCubeSet L → Prop}
    (decides : ∀ e ∈ layers, Returns (walk e) (· = some true ↔ inside e)) (count : Nat) :
    Returns (walkLayers walk count layers) fun r =>
      (r = some (count + layers.length) ↔ ∀ e ∈ layers, inside e) ∧
      ∀ n, r = some n → n ≤ count + layers.length := by
  induction layers generalizing count with
  | nil => exact returns_pure ⟨by simp, by simp⟩
  | cons e rest ih =>
    have ih := ih fun e member => decides e (List.mem_cons_of_mem _ member)
    rw [List.length_cons, List.forall_mem_cons]
    unfold walkLayers
    refine returns_bind (decides e List.mem_cons_self) ?_
    intro found answer
    match found with
    | none => exact returns_pure ⟨iff_of_false (by simp) fun all => by simpa using answer.mpr all.1,
        by simp⟩
    | some true =>
      refine returns_mono (ih (count + 1)) ?_
      intro r ⟨counted, bound⟩
      have shift : count + (rest.length + 1) = count + 1 + rest.length := by omega
      rw [shift]
      exact ⟨counted.trans (and_iff_right (answer.mp rfl)).symm, bound⟩
    | some false =>
      refine returns_mono (ih count) ?_
      intro r ⟨_, bound⟩
      refine ⟨iff_of_false (fun same => ?_) fun all => by simpa using answer.mpr all.1, ?_⟩
      · have := bound _ same
        omega
      · intro n same
        have := bound n same
        omega

/-- The walk over the second set's keys gives a value `c` exactly when every sub-cube contains the
first set and `c` is the union of the keys. -/
theorem collectCovered_from {contained : CanonicalHyperCubeSet L → Except Failure Bool}
    {inside : CanonicalHyperCubeSet L → Prop} {covered c : LayerElem L}
    (decides : ∀ e ∈ others, Returns (contained e.2) (· = true ↔ inside e.2))
    (shaped : ∀ e ∈ others, LayerElem.Shaped t e.1) (start : LayerElem.Shaped t covered)
    (shapedC : LayerElem.Shaped t c) :
    Returns (collectCovered contained (some covered) others) fun r =>
      (r = some (some c) ↔ (∀ e ∈ others, inside e.2) ∧
        ∀ x, x ∈ c ↔ x ∈ covered ∨ ∃ e ∈ others, x ∈ e.1) := by
  induction others generalizing covered with
  | nil =>
    refine returns_pure ?_
    rw [Option.some.injEq, Option.some.injEq]
    constructor
    · rintro rfl
      simp
    · intro ⟨_, members⟩
      exact LayerElem.ext start shapedC fun x => by simp [members]
  | cons e rest ih =>
    obtain ⟨elem, sub_elem⟩ := e
    unfold collectCovered
    refine returns_bind (decides _ List.mem_cons_self) ?_
    intro answer decided
    by_cases good : answer = true
    · rw [if_neg (by simp [good])]
      refine returns_bind (LayerElem.or_spec start (shaped _ List.mem_cons_self)) ?_
      intro u ⟨shapedU, members⟩
      refine returns_mono (ih (fun e member => decides e (List.mem_cons_of_mem _ member))
        (fun e member => shaped e (List.mem_cons_of_mem _ member)) shapedU) ?_
      intro r found
      rw [found, List.forall_mem_cons, and_iff_right (decided.mp good)]
      simp only [members, List.exists_mem_cons_iff, or_assoc]
    · rw [if_pos (by simpa using good)]
      refine returns_pure (iff_of_false (by simp) fun all => ?_)
      exact good (decided.mpr (all.1 _ List.mem_cons_self))

theorem collectCovered_spec {contained : CanonicalHyperCubeSet L → Except Failure Bool}
    {inside : CanonicalHyperCubeSet L → Prop} {c : LayerElem L} (nonempty : others ≠ [])
    (decides : ∀ e ∈ others, Returns (contained e.2) (· = true ↔ inside e.2))
    (shaped : ∀ e ∈ others, LayerElem.Shaped t e.1) (shapedC : LayerElem.Shaped t c) :
    Returns (collectCovered contained none others) fun r =>
      (r = some (some c) ↔ (∀ e ∈ others, inside e.2) ∧ ∀ x, x ∈ c ↔ ∃ e ∈ others, x ∈ e.1) := by
  obtain ⟨⟨elem, sub_elem⟩, rest, rfl⟩ := List.exists_cons_of_ne_nil nonempty
  unfold collectCovered
  refine returns_bind (decides _ List.mem_cons_self) ?_
  intro answer decided
  by_cases good : answer = true
  · rw [if_neg (by simp [good])]
    refine returns_mono (collectCovered_from
      (fun e member => decides e (List.mem_cons_of_mem _ member))
      (fun e member => shaped e (List.mem_cons_of_mem _ member))
      (shaped _ List.mem_cons_self) shapedC) ?_
    intro r found
    rw [found, List.forall_mem_cons, and_iff_right (decided.mp good)]
    simp only [List.exists_mem_cons_iff]
  · rw [if_pos (by simpa using good)]
    refine returns_pure (iff_of_false (by simp) fun all => ?_)
    exact good (decided.mpr (all.1 _ List.mem_cons_self))

theorem isLast_iff : isLastDimension (d :: ds) = true ↔ ds = [] := by
  simp [isLastDimension]

theorem sublist_rest (inactive : d ∉ a) (sublist : a.Sublist (d :: ds)) :
    a.Sublist ds := by
  cases sublist with
  | cons _ inner => exact inner
  | cons_cons _ _ => exact (inactive List.mem_cons_self).elim

theorem sublist_head (active : d ∈ a) (nodup : (d :: ds).Nodup) (sublist : a.Sublist (d :: ds)) :
    ∃ rest, a = d :: rest ∧ rest.Sublist ds := by
  cases sublist with
  | cons _ inner => exact ((List.nodup_cons.mp nodup).1 (inner.subset active)).elim
  | @cons_cons rest _ _ inner => exact ⟨rest, rfl, inner⟩

/-- The sub-cube keeps a common part of the keys from being contained. -/
theorem blocked_spec {rest : List String} {sub_elem other_sub_elem : CanonicalHyperCubeSet L}
    (below : Sub space a sub_elem) (below' : Sub space b other_sub_elem)
    (ordered : b.Sublist space.all_dimensions_list)
    (recursive : a ≠ [] → b ≠ [] → Returns (containedInAux space rest sub_elem other_sub_elem)
      (· = true ↔ Contained space a b sub_elem other_sub_elem)) :
    Returns (if !isLastDimension (d :: a) && !isLastDimension (d :: b) then do
        pure (!(← containedInAux space rest sub_elem other_sub_elem))
      else if isLastDimension (d :: a) && !isLastDimension (d :: b) then do
        pure (!(← isSubElemEntireSubSpace space other_sub_elem))
      else pure false)
      (· = true ↔ ¬ Contained space a b sub_elem other_sub_elem) := by
  by_cases last' : b = []
  · subst last'
    rw [if_neg (by simp [isLastDimension]), if_neg (by simp [isLastDimension])]
    refine returns_pure (iff_of_false (by simp) ?_)
    exact fun blocked => blocked fun _ _ _ => trivial
  · by_cases last : a = []
    · subst last
      rw [if_neg (by simp [isLastDimension]),
        if_pos (by simpa [isLastDimension] using last')]
      refine returns_bind (isSubElemEntireSubSpace_spec below' last' ordered) ?_
      intro answer decides
      refine returns_pure ?_
      rw [Bool.not_eq_true', ← Bool.not_eq_true, decides]
      exact not_congr (forall₂_congr fun p point => ⟨fun holds _ => holds, fun all => all trivial⟩)
    · rw [if_pos (by simpa [isLastDimension] using And.intro last last')]
      refine returns_bind (recursive last last') ?_
      intro answer decides
      refine returns_pure ?_
      rw [Bool.not_eq_true', ← Bool.not_eq_true, decides]

omit [ExactSet L String] in
theorem foldlM_and_spec {f : LayerElem L × CanonicalHyperCubeSet L → Except Failure Bool}
    {inside : LayerElem L × CanonicalHyperCubeSet L → Prop}
    (decides : ∀ e ∈ layers, Returns (f e) (· = true ↔ inside e)) :
    Returns (layers.foldlM (fun res e => do
        let contained ← f e
        pure (res && contained)) true) (· = true ↔ ∀ e ∈ layers, inside e) := by
  refine returns_foldlM (fun done res => (res = true ↔ ∀ e ∈ done, inside e)) (by simp) ?_
  intro before e after res whole inv
  refine returns_bind (decides e (by simp [whole])) ?_
  intro contained answer
  refine returns_pure ?_
  rw [Bool.and_eq_true, inv, answer, List.forall_mem_append, List.forall_mem_singleton]

/-- The recursive walk decides containment, over all dimensions that are active in an operand. -/
theorem containedInAux_spec (left : Sub space a h) (right : Sub space b o) (someLeft : a ≠ [])
    (someRight : b ≠ []) (sublistLeft : a.Sublist ds) (sublistRight : b.Sublist ds)
    (ordered : ds.Sublist space.all_dimensions_list) (union : ∀ d ∈ ds, d ∈ a ∨ d ∈ b) :
    Returns (containedInAux space ds h o) (· = true ↔ Contained space a b h o) := by
  induction ds generalizing a b h o with
  | nil => exact (someLeft (List.sublist_nil.mp sublistLeft)).elim
  | cons c rest ih =>
    have nodup := space.nodup.sublist ordered
    obtain ⟨fresh, nodupRest⟩ := List.nodup_cons.mp nodup
    have orderedRest := (List.sublist_cons_self c rest).trans ordered
    have shapeLeft : ∃ layers, h = mk a layers := by
      obtain ⟨_, _, rfl⟩ := List.exists_cons_of_ne_nil someLeft
      exact ⟨_, (level_mk left.1).1⟩
    have shapeRight : ∃ others, o = mk b others := by
      obtain ⟨_, _, rfl⟩ := List.exists_cons_of_ne_nil someRight
      exact ⟨_, (level_mk right.1).1⟩
    obtain ⟨layers, rfl⟩ := shapeLeft
    obtain ⟨others, rfl⟩ := shapeRight
    have entireRight := isSubElemEntireSubSpace_spec right someRight (sublistRight.trans ordered)
    unfold containedInAux
    by_cases inRight : c ∈ b
    · obtain ⟨b, rfl, innerRight⟩ := sublist_head inRight nodup sublistRight
      have freshRight : c ∉ b := fun inside => fresh (innerRight.subset inside)
      have partsRight : Parts space c (Sub space b) others := (level_mk right.1).2.1
      have filledRight : others ≠ [] := right.2 (List.cons_ne_nil c b)
      rw [if_neg (not_not.mpr inRight)]
      by_cases inLeft : c ∈ a
      · -- case 3: the dimension is common to both
        obtain ⟨a, rfl, innerLeft⟩ := sublist_head inLeft nodup sublistLeft
        have freshLeft : c ∉ a := fun inside => fresh (innerLeft.subset inside)
        have partsLeft : Parts space c (Sub space a) layers := (level_mk left.1).2.1
        have unionRest : ∀ d ∈ rest, d ∈ a ∨ d ∈ b := by
          intro d member
          have other : d ≠ c := fun same => fresh (same ▸ member)
          simpa [other] using union d (List.mem_cons_of_mem c member)
        rw [if_neg (not_not.mpr inLeft), assert_bind ⟨inLeft, inRight⟩]
        by_cases last : a = [] ∧ b = []
        · obtain ⟨rfl, rfl⟩ := last
          rw [if_pos (by simp [isLastDimension])]
          obtain ⟨value, found, key, holds⟩ := getLastDimCubeValue_spec left
          obtain ⟨value', found', key', holds'⟩ := getLastDimCubeValue_spec right
          rw [found, ok_bind, found', ok_bind]
          refine returns_mono (LayerElem.containedIn_spec key.shaped key'.shaped) ?_
          intro answer decides
          rw [decides]
          constructor
          · intro within p _ inside
            exact (holds' p).mpr (within _ ((holds p).mp inside))
          · intro contained x inside
            obtain ⟨q, point⟩ := point_exists space
            have valid := point_update point (key.within x inside)
            have hit := contained _ valid ((holds _).mpr (by rwa [Function.update_self]))
            rwa [holds', Function.update_self] at hit
        · rw [if_neg (by simpa [isLastDimension] using last)]
          have walks : ∀ e ∈ layers, Returns (walkLayer (fun other_sub_elem =>
              if !isLastDimension (c :: a) && !isLastDimension (c :: b) then do
                pure (!(← containedInAux space rest e.2 other_sub_elem))
              else if isLastDimension (c :: a) && !isLastDimension (c :: b) then do
                pure (!(← isSubElemEntireSubSpace space other_sub_elem))
              else pure false) e.1 others) (· = some true ↔ KeyContained space a b others e) := by
            intro e member
            have key := partsLeft.keys e member
            have below := partsLeft.subs e member
            refine walkLayer_spec (fun e' member' => ?_)
              (fun e' member' => (partsRight.keys e' member').shaped) partsRight.apart
              key.shaped key.some
            have below' := partsRight.subs e' member'
            refine blocked_spec below below' (innerRight.trans orderedRest) fun some some' => ?_
            exact ih below below' some some' innerLeft innerRight orderedRest unionRest
          refine returns_bind (walkLayers_spec walks 0) ?_
          rintro r ⟨counted, bound⟩
          rw [contained_common partsLeft partsRight
            (List.nodup_cons.mpr ⟨freshLeft, nodupRest.sublist innerLeft⟩) freshRight
            (innerLeft.trans orderedRest).subset, ← counted]
          cases r with
          | none => exact returns_pure (by simp)
          | some n => exact returns_pure (by simp)
      · -- case 2: the dimension is only in other
        have innerLeft := sublist_rest inLeft sublistLeft
        have nodupLeft := nodup.sublist sublistLeft
        have knownLeft : c :: a ⊆ space.all_dimensions_list :=
          List.cons_subset.mpr ⟨ordered.subset List.mem_cons_self,
            (innerLeft.trans orderedRest).subset⟩
        rw [if_pos inLeft]
        by_cases last : b = []
        · subst last
          rw [if_pos (by simp [isLastDimension])]
          refine returns_mono entireRight fun answer decides => decides.trans ?_
          exact (contained_entire left nodupLeft (fun d member => knownLeft
            (List.mem_cons_of_mem c member)) (by simpa using inLeft)).symm
        · rw [if_neg (by simpa [isLastDimension] using last), assert_bind filledRight]
          have known := ordered.subset List.mem_cons_self
          refine returns_bind (collectCovered_spec (c := space.domain c) filledRight
            (fun e member => ih left (partsRight.subs e member) someLeft last innerLeft innerRight
              orderedRest fun d inside => ?_)
            (fun e member => (partsRight.keys e member).shaped) (domain_shaped known)) ?_
          · have other : d ≠ c := fun same => fresh (same ▸ inside)
            simpa [other] using union d (List.mem_cons_of_mem c inside)
          · intro r found
            have covers : (∀ x, x ∈ space.domain c ↔ ∃ e ∈ others, x ∈ e.1) ↔
                ∀ x ∈ space.domain c, ∃ e ∈ others, x ∈ e.1 := by
              refine forall_congr' fun x => ⟨fun iff => iff.mp, fun into => ⟨into, ?_⟩⟩
              rintro ⟨e, member, inside⟩
              exact (partsRight.keys e member).within x inside
            rw [contained_right partsRight left nodupLeft knownLeft freshRight inLeft, ← covers,
              ← found]
            cases r with
            | none => exact returns_pure (by simp)
            | some covered =>
              show Returns (do
                let domain ← space.manager.getDimensionDomainByName c
                pure (decide (covered = some domain))) _
              rw [getDomain_eq known, ok_bind]
              exact returns_pure (by simp)
    · -- case 1: the dimension is only in self
      have inLeft : c ∈ a := (union c List.mem_cons_self).resolve_right inRight
      obtain ⟨a, rfl, innerLeft⟩ := sublist_head inLeft nodup sublistLeft
      have innerRight := sublist_rest inRight sublistRight
      have freshLeft : c ∉ a := fun inside => fresh (innerLeft.subset inside)
      have partsLeft : Parts space c (Sub space a) layers := (level_mk left.1).2.1
      rw [if_pos inRight]
      by_cases last : a = []
      · subst last
        rw [if_pos (by simp [isLastDimension])]
        have more : ¬ c :: rest = [c] := by
          intro same
          rw [(List.cons.inj same).2] at innerRight
          exact someRight (List.sublist_nil.mp innerRight)
        rw [if_neg more]
        refine returns_mono entireRight fun answer decides => decides.trans ?_
        refine (contained_entire left (List.nodup_singleton c)
          (List.cons_subset.mpr ⟨ordered.subset List.mem_cons_self, List.nil_subset _⟩) ?_).symm
        intro d member single
        exact inRight (List.mem_singleton.mp single ▸ member)
      · rw [if_neg (by simpa [isLastDimension] using last)]
        rw [contained_left partsLeft freshLeft inRight]
        refine foldlM_and_spec fun e member => ?_
        refine ih (partsLeft.subs e member) right last someRight innerLeft innerRight orderedRest ?_
        intro d inside
        have other : d ≠ c := fun same => fresh (same ▸ inside)
        simpa [other] using union d (List.mem_cons_of_mem c inside)

theorem containedIn_spec (left : Canonical space h) (right : Canonical space other) :
    Returns (containedIn space h other) fun answer =>
      (answer = true ↔ ∀ p, Point space p → Has h p → Has other p) := by
  have noLeft := canonical_bool left
  have noRight := canonical_bool right
  unfold containedIn
  by_cases trivially : (other.isAll || !h.bool) = true
  · rw [if_pos trivially]
    refine returns_pure (iff_of_true rfl fun p point has => ?_)
    rcases Bool.or_eq_true_iff.mp trivially with all | none
    · rw [(canonical_isAll right).mp all]
      exact trivial
    · rw [noLeft.mpr ⟨p, point, has⟩] at none
      cases none
  · rw [if_neg trivially]
    rw [Bool.or_eq_true, not_or, Bool.not_eq_true', Bool.not_eq_false] at trivially
    obtain ⟨part, filled⟩ := trivially
    obtain ⟨p₀, point₀, has₀⟩ := noLeft.mp filled
    by_cases never : (!other.bool || h.isAll) = true
    · rw [if_pos never]
      refine returns_pure (iff_of_false (by simp) fun contained => ?_)
      rcases Bool.or_eq_true_iff.mp never with none | all
      · rw [noRight.mpr ⟨p₀, point₀, contained p₀ point₀ has₀⟩] at none
        cases none
      · -- a set that holds every point has no active dimension that makes a difference
        have whole := (canonical_isAll left).mp all
        have every : ∀ p, Point space p → Has other p := fun p point =>
          contained p point (whole ▸ trivial)
        obtain ⟨d, ds, active⟩ := List.exists_cons_of_ne_nil (append_active part right)
        have member : d ∈ other.active_dimensions := active ▸ List.mem_cons_self
        refine (active_iff right (noRight.mpr ⟨p₀, point₀, every p₀ point₀⟩) d).mp member ?_
        intro p x point valid
        exact iff_of_true (every _ (point_update point valid)) (every p point)
    · rw [if_neg never]
      rw [Bool.or_eq_true, not_or, Bool.not_eq_true', Bool.not_eq_false] at never
      obtain ⟨filledRight, partLeft⟩ := never
      have subLeft := (canonical_filled left filled).2.resolve_left fun whole =>
        partLeft ((canonical_isAll left).mpr whole)
      have subRight := (canonical_filled right filledRight).2.resolve_left fun whole =>
        part ((canonical_isAll right).mpr whole)
      have ordered := subsetByOrder_sublist space (h.active_dimensions ++ other.active_dimensions)
      refine containedInAux_spec subLeft.2 subRight.2 subLeft.1 subRight.1 ?_ ?_ ordered ?_
      · refine sublist_of_subset space.nodup left.ordered ordered fun d member => ?_
        exact mem_subsetByOrder.mpr ⟨left.ordered.subset member, List.mem_append_left _ member⟩
      · refine sublist_of_subset space.nodup right.ordered ordered fun d member => ?_
        exact mem_subsetByOrder.mpr ⟨right.ordered.subset member, List.mem_append_right _ member⟩
      · exact fun d member => List.mem_append.mp (mem_subsetByOrder.mp member).2

/-- Structural equality and the containment algorithm agree. -/
theorem eq_containedIn (left : Canonical space h) (right : Canonical space other) :
    Returns (containedIn space h other) fun answer =>
      Returns (containedIn space other h) fun answer' =>
        (eq h other = true ↔ answer = true ∧ answer' = true) := by
  refine returns_mono (containedIn_spec left right) fun answer decides => ?_
  refine returns_mono (containedIn_spec right left) fun answer' decides' => ?_
  rw [canonical_eq left right, decides, decides']
  constructor
  · intro same
    exact ⟨fun p point => (same p point).mp, fun p point => (same p point).mpr⟩
  · rintro ⟨contained, contains⟩ p point
    exact ⟨contained p point, contains p point⟩

section Ports

theorem port_canonical : Canonical ports (mk ["dst_ports"] [(port 3, emptyInterval)]) ∧
    Canonical ports (mk ["src_ports"] [(port 1, emptyInterval)]) := by
  constructor
  · obtain ⟨r, run, canonical, _⟩ := createFromCube_spec (List.cons_ne_nil _ _)
      (port_fits (n := 3) (d := "dst_ports") (by decide) (by decide) (by decide))
    obtain rfl := Except.ok.inj run
    exact canonical
  · obtain ⟨r, run, canonical, _⟩ := createFromCube_spec (List.cons_ne_nil _ _)
      (port_fits (n := 1) (d := "src_ports") (by decide) (by decide) (by decide))
    obtain rfl := Except.ok.inj run
    exact canonical

end Ports

end CanonicalHyperCubeSet
end Nca.CoreDS
