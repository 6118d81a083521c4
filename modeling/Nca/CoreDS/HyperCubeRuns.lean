import Nca.CoreDS.HyperCubeOperations
import Mathlib.Data.Set.Basic

/-!
Runs over hypercube sets. A program creates sets over one space and combines them in any order; a
store of point sets follows it. As long as no subtraction leaves layers over an empty set, every
set of the store stays canonical and holds exactly its points.
-/

namespace Nca.CoreDS
open Lib Python Space

variable {L : Type} [ExactSet L String]

namespace CanonicalHyperCubeSet

/-- One operation of a program; sets are named by their place in the store. -/
inductive Cmd (L : Type) where
  | init (allow_all : Bool)
  | createFromCube (cube : List (LayerElem L)) (cube_dims : List String)
  | addCube (self : Nat) (cube : List (LayerElem L)) (cube_dims : Option (List String))
  | addHole (self : Nat) (hole : List (LayerElem L)) (hole_dims : Option (List String))
  | and (self other : Nat)
  | or (self other : Nat)
  | sub (self other : Nat)
  | iand (self other : Nat)
  | ior (self other : Nat)
  | isub (self other : Nat)

section Run
variable (space : Space L)

/-- An operation with its result at the end of the store, or in place of its first operand. -/
def step (store : List (CanonicalHyperCubeSet L)) :
    Cmd L → Except Failure (List (CanonicalHyperCubeSet L))
  | .init allow_all => pure (store ++ [init space allow_all])
  | .createFromCube cube cube_dims => do
    pure (store ++ [← createFromCube space cube cube_dims])
  | .addCube i cube cube_dims => do
    pure (store.set i (← (← item store i).addCube space cube cube_dims))
  | .addHole i hole hole_dims => do
    pure (store.set i (← (← item store i).addHole space hole hole_dims))
  | .and i j => do pure (store ++ [← (← item store i).and space (← item store j)])
  | .or i j => do pure (store ++ [← (← item store i).or space (← item store j)])
  | .sub i j => do pure (store ++ [← (← item store i).sub space (← item store j)])
  | .iand i j => do pure (store.set i (← (← item store i).and space (← item store j)))
  | .ior i j => do pure (store.set i (← (← item store i).or space (← item store j)))
  | .isub i j => do pure (store.set i (← (← item store i).sub space (← item store j)))

def run (cmds : List (Cmd L)) : Except Failure (List (CanonicalHyperCubeSet L)) :=
  cmds.foldlM (step space) []

/-- The dimensions of a cube that is given without them. -/
def cubeDims (cube : List (LayerElem L)) (cube_dims : Option (List String)) : List String :=
  cube_dims.getD (space.all_dimensions_list.take cube.length)

/-- The points of a cube; a cube without values is ignored. -/
def cubePoints (cube : List (LayerElem L)) (cube_dims : List String) : Set (String → Item) :=
  {p | cube ≠ [] ∧ InCube cube cube_dims p}

/-- The same operation on sets of points. -/
def absStep (sets : List (Set (String → Item))) : Cmd L → List (Set (String → Item))
  | .init allow_all => sets ++ [{_p | allow_all = true}]
  | .createFromCube cube cube_dims => sets ++ [cubePoints cube cube_dims]
  | .addCube i cube cube_dims =>
    sets.set i (sets.getD i ∅ ∪ cubePoints cube (cubeDims space cube cube_dims))
  | .addHole i hole hole_dims =>
    sets.set i (sets.getD i ∅ \ cubePoints hole (cubeDims space hole hole_dims))
  | .and i j => sets ++ [sets.getD i ∅ ∩ sets.getD j ∅]
  | .or i j => sets ++ [sets.getD i ∅ ∪ sets.getD j ∅]
  | .sub i j => sets ++ [sets.getD i ∅ \ sets.getD j ∅]
  | .iand i j => sets.set i (sets.getD i ∅ ∩ sets.getD j ∅)
  | .ior i j => sets.set i (sets.getD i ∅ ∪ sets.getD j ∅)
  | .isub i j => sets.set i (sets.getD i ∅ \ sets.getD j ∅)

def absRun (cmds : List (Cmd L)) : List (Set (String → Item)) :=
  cmds.foldl (absStep space) []

/-- The operands exist, and cubes fit the space. -/
def Fits (size : Nat) : Cmd L → Prop
  | .init _ => True
  | .createFromCube cube cube_dims => cube ≠ [] ∧ CubeFits space cube cube_dims
  | .addCube i cube cube_dims | .addHole i cube cube_dims =>
    i < size ∧ (cube ≠ [] → CubeFits space cube (cubeDims space cube cube_dims))
  | .and i j | .or i j | .sub i j | .iand i j | .ior i j | .isub i j => i < size ∧ j < size

/-- A subtraction from an empty set covers the dimensions before its first active one. -/
def Covered (store : List (CanonicalHyperCubeSet L)) : Cmd L → Prop
  | .addHole i hole hole_dims => ∀ self, store[i]? = some self →
    SubtractionCovers space self (cubePoints hole (cubeDims space hole hole_dims))
  | .sub i j | .isub i j => ∀ self other, store[i]? = some self → store[j]? = some other →
    SubtractionCovers space self (Has other)
  | _ => True

/-- Every command is acceptable in the store that it finds. -/
def EveryStep (ok : List (CanonicalHyperCubeSet L) → Cmd L → Prop) :
    List (CanonicalHyperCubeSet L) → List (Cmd L) → Prop
  | _, [] => True
  | store, cmd :: rest =>
    ok store cmd ∧ ∀ store', step space store cmd = .ok store' → EveryStep ok store' rest

/-- Commands that fit. -/
def Fitting (store : List (CanonicalHyperCubeSet L)) (cmd : Cmd L) : Prop :=
  Fits space store.length cmd

/-- Commands that fit, and cover if they subtract from an empty set. -/
def Admissible (store : List (CanonicalHyperCubeSet L)) (cmd : Cmd L) : Prop :=
  Fits space store.length cmd ∧ Covered space store cmd

/-- A canonical set with exactly these points of the space. -/
def Represents (h : CanonicalHyperCubeSet L) (S : Set (String → Item)) : Prop :=
  Canonical space h ∧ ∀ p, Point space p → (Has h p ↔ p ∈ S)

/-- `point in h`. -/
def In (h : CanonicalHyperCubeSet L) (p : String → Item) : Prop :=
  contains space (maxDepth space) h (space.all_dimensions_list.map p) = .ok true

end Run

variable {space : Space L} {h other : CanonicalHyperCubeSet L} {S T : Set (String → Item)}
  {store : List (CanonicalHyperCubeSet L)} {sets : List (Set (String → Item))}

theorem in_iff {p : String → Item} (canonical : Canonical space h) (point : Point space p) :
    In space h p ↔ Has h p := by
  obtain ⟨answer, found, decides⟩ := contains_spec canonical point
  rw [← decides]
  unfold In
  rw [found]
  cases answer <;> simp

theorem cube_empty {cube : List (LayerElem L)} {cube_dims : List String}
    (fits : CubeFits space cube cube_dims) {value : LayerElem L} (member : value ∈ cube)
    (empty : value.bool = false) (p : String → Item) : ¬ InCube cube cube_dims p := by
  intro inside
  obtain ⟨i, bound, rfl⟩ := List.mem_iff_getElem.mp member
  have length := fits.values.length_eq
  have entry : (cube[i], cube_dims[i]) ∈ cube.zip cube_dims := by
    rw [List.mem_iff_getElem]
    exact ⟨i, by simp; omega, by simp⟩
  have shaped := (List.forall₂_iff_zip.mp fits.values).2 entry
  exact (LayerElem.bool_eq_false shaped.1).mp empty _ (inside _ entry)

theorem addCube_spec {cube : List (LayerElem L)} {cube_dims : Option (List String)}
    (represents : Represents space h S)
    (fits : cube ≠ [] → CubeFits space cube (cubeDims space cube cube_dims)) :
    Returns (h.addCube space cube cube_dims) fun r =>
      Represents space r (S ∪ cubePoints cube (cubeDims space cube cube_dims)) := by
  obtain ⟨canonical, points⟩ := represents
  unfold addCube
  dsimp only
  by_cases none : cube = []
  · rw [if_pos none]
    refine returns_pure ⟨canonical, fun p point => (points p point).trans ?_⟩
    simp [cubePoints, none]
  · have fits := fits none
    rw [if_neg none]
    by_cases empty : (cube.any fun dim_value => !dim_value.bool) = true
    · rw [if_pos empty]
      obtain ⟨value, member, hollow⟩ := List.any_eq_true.mp empty
      refine returns_pure ⟨canonical, fun p point => (points p point).trans ?_⟩
      have out := cube_empty fits member (by simpa using hollow) p
      simp [cubePoints, out]
    · rw [if_neg empty]
      refine returns_bind (createFromCube_spec none fits) ?_
      rintro cube_obj ⟨canonicalCube, pointsCube⟩
      refine returns_mono (or_spec canonical canonicalCube) ?_
      rintro r ⟨canonicalR, pointsR⟩
      refine ⟨canonicalR, fun p point => ?_⟩
      rw [pointsR p point, points p point, pointsCube p point]
      exact or_congr_right (and_iff_right none).symm

theorem addHole_spec {hole : List (LayerElem L)} {hole_dims : Option (List String)}
    (represents : Represents space h S)
    (fits : hole ≠ [] → CubeFits space hole (cubeDims space hole hole_dims))
    (covers : SubtractionCovers space h (cubePoints hole (cubeDims space hole hole_dims))) :
    Returns (h.addHole space hole hole_dims) fun r =>
      Represents space r (S \ cubePoints hole (cubeDims space hole hole_dims)) := by
  obtain ⟨canonical, points⟩ := represents
  unfold addHole
  dsimp only
  by_cases none : hole = []
  · rw [if_pos none]
    refine returns_pure ⟨canonical, fun p point => (points p point).trans ?_⟩
    simp [cubePoints, none]
  · have fits := fits none
    rw [if_neg none]
    by_cases empty : (hole.any fun dim_value => !dim_value.bool) = true
    · rw [if_pos empty]
      obtain ⟨value, member, hollow⟩ := List.any_eq_true.mp empty
      refine returns_pure ⟨canonical, fun p point => (points p point).trans ?_⟩
      have out := cube_empty fits member (by simpa using hollow) p
      simp [cubePoints, out]
    · rw [if_neg empty]
      refine returns_bind (createFromCube_spec none fits) ?_
      rintro cube_obj ⟨canonicalCube, pointsCube⟩
      have same : ∀ p, Point space p →
          (cubePoints hole (cubeDims space hole hole_dims) p ↔ Has cube_obj p) := by
        intro p point
        rw [pointsCube p point]
        exact and_iff_right none
      refine returns_mono (sub_spec canonical canonicalCube (subtractionCovers_congr same covers)) ?_
      rintro r ⟨canonicalR, pointsR⟩
      refine ⟨canonicalR, fun p point => ?_⟩
      rw [pointsR p point, points p point, ← same p point]
      rfl

/-- Every set of the store has the points that the abstract store gives it. -/
abbrev Safe (space : Space L) (store : List (CanonicalHyperCubeSet L))
    (sets : List (Set (String → Item))) : Prop :=
  List.Forall₂ (Represents space) store sets

theorem safe_item (safe : Safe space store sets) {i : Nat} (bound : i < store.length) :
    Returns (item store i) fun self => store[i]? = some self ∧
      Represents space self (sets.getD i ∅) := by
  refine ⟨store[i], item_nat bound, List.getElem?_eq_getElem bound, ?_⟩
  have bound' : i < sets.length := safe.length_eq ▸ bound
  rw [List.getD_eq_getElem?_getD, List.getElem?_eq_getElem bound', Option.getD_some]
  exact List.Forall₂.get safe bound bound'

theorem safe_append (safe : Safe space store sets) (new : Represents space h S) :
    Safe space (store ++ [h]) (sets ++ [S]) :=
  List.rel_append safe (.cons new .nil)

theorem safe_set (safe : Safe space store sets) (new : Represents space h S) (i : Nat) :
    Safe space (store.set i h) (sets.set i S) := by
  induction safe generalizing i with
  | nil => exact .nil
  | cons first rest ih =>
    cases i with
    | zero => exact .cons new rest
    | succ i => exact .cons first (ih i)

theorem safe_operation {op : CanonicalHyperCubeSet L → CanonicalHyperCubeSet L →
      Except Failure (CanonicalHyperCubeSet L)}
    {next : CanonicalHyperCubeSet L → Except Failure (List (CanonicalHyperCubeSet L))}
    {post : List (CanonicalHyperCubeSet L) → Prop} {i j : Nat}
    (safe : Safe space store sets) (bounds : i < store.length ∧ j < store.length)
    (spec : ∀ self other, store[i]? = some self → store[j]? = some other →
      Represents space self (sets.getD i ∅) → Represents space other (sets.getD j ∅) →
      Returns (op self other) (Represents space · S))
    (continues : ∀ r, Represents space r S → Returns (next r) post) :
    Returns (do next (← op (← item store i) (← item store j))) post := by
  refine returns_bind (safe_item safe bounds.1) ?_
  rintro self ⟨foundSelf, left⟩
  refine returns_bind (safe_item safe bounds.2) ?_
  rintro other ⟨foundOther, right⟩
  exact returns_bind (spec self other foundSelf foundOther left right) continues

theorem represents_and (left : Represents space h S) (right : Represents space other T) :
    Returns (h.and space other) (Represents space · (S ∩ T)) := by
  refine returns_mono (and_spec left.1 right.1) ?_
  rintro r ⟨canonical, points⟩
  refine ⟨canonical, fun p point => ?_⟩
  rw [points p point, left.2 p point, right.2 p point]
  rfl

theorem represents_or (left : Represents space h S) (right : Represents space other T) :
    Returns (h.or space other) (Represents space · (S ∪ T)) := by
  refine returns_mono (or_spec left.1 right.1) ?_
  rintro r ⟨canonical, points⟩
  refine ⟨canonical, fun p point => ?_⟩
  rw [points p point, left.2 p point, right.2 p point]
  rfl

theorem represents_sub (left : Represents space h S) (right : Represents space other T)
    (covers : SubtractionCovers space h (Has other)) :
    Returns (h.sub space other) (Represents space · (S \ T)) := by
  refine returns_mono (sub_spec left.1 right.1 covers) ?_
  rintro r ⟨canonical, points⟩
  refine ⟨canonical, fun p point => ?_⟩
  rw [points p point, left.2 p point, right.2 p point]
  rfl

theorem represents_init (allow_all : Bool) :
    Represents space (init space allow_all) {_p | allow_all = true} := by
  cases allow_all with
  | true => exact ⟨canonical_all, fun _ _ => iff_of_true trivial rfl⟩
  | false =>
    refine ⟨canonical_nothing space.some_dimension (List.Sublist.refl _), fun p _ => ?_⟩
    exact iff_of_false (has_nothing space.some_dimension p) (by simp)

theorem step_safe (safe : Safe space store sets) (cmd : Cmd L)
    (fits : Fits space store.length cmd) (covered : Covered space store cmd) :
    Returns (step space store cmd) fun store' => Safe space store' (absStep space sets cmd) := by
  cases cmd with
  | init allow_all => exact returns_pure (safe_append safe (represents_init allow_all))
  | createFromCube cube cube_dims =>
    refine returns_bind (createFromCube_spec fits.1 fits.2) ?_
    rintro r ⟨canonical, points⟩
    refine returns_pure (safe_append safe ⟨canonical, fun p point => ?_⟩)
    rw [points p point]
    exact (and_iff_right fits.1).symm
  | addCube i cube cube_dims =>
    refine returns_bind (safe_item safe fits.1) ?_
    rintro self ⟨_, represents⟩
    refine returns_bind (addCube_spec represents fits.2) ?_
    exact fun r new => returns_pure (safe_set safe new i)
  | addHole i hole hole_dims =>
    refine returns_bind (safe_item safe fits.1) ?_
    rintro self ⟨found, represents⟩
    refine returns_bind (addHole_spec represents fits.2 (covered self found)) ?_
    exact fun r new => returns_pure (safe_set safe new i)
  | and i j =>
    exact safe_operation safe fits (fun _ _ _ _ => represents_and)
      fun r new => returns_pure (safe_append safe new)
  | or i j =>
    exact safe_operation safe fits (fun _ _ _ _ => represents_or)
      fun r new => returns_pure (safe_append safe new)
  | sub i j =>
    exact safe_operation safe fits
      (fun self other foundSelf foundOther left right =>
        represents_sub left right (covered self other foundSelf foundOther))
      fun r new => returns_pure (safe_append safe new)
  | iand i j =>
    exact safe_operation safe fits (fun _ _ _ _ => represents_and)
      fun r new => returns_pure (safe_set safe new i)
  | ior i j =>
    exact safe_operation safe fits (fun _ _ _ _ => represents_or)
      fun r new => returns_pure (safe_set safe new i)
  | isub i j =>
    exact safe_operation safe fits
      (fun self other foundSelf foundOther left right =>
        represents_sub left right (covered self other foundSelf foundOther))
      fun r new => returns_pure (safe_set safe new i)

theorem run_safe {cmds : List (Cmd L)} (safe : Safe space store sets)
    (admissible : EveryStep space (Admissible space) store cmds) :
    Returns (cmds.foldlM (step space) store) fun store' =>
      Safe space store' (cmds.foldl (absStep space) sets) := by
  induction cmds generalizing store sets with
  | nil => exact returns_pure safe
  | cons cmd rest ih =>
    obtain ⟨⟨fits, covered⟩, later⟩ := admissible
    obtain ⟨store', run, safe'⟩ := step_safe safe cmd fits covered
    rw [List.foldlM_cons, run, ok_bind]
    exact ih safe' (later store' run)

theorem safe_entry (safe : Safe space store sets) (member : h ∈ store) :
    ∃ S, Represents space h S := by
  induction safe with
  | nil => cases member
  | cons first rest ih =>
    rcases List.mem_cons.mp member with rfl | later
    · exact ⟨_, first⟩
    · exact ih later

/-- Membership in the sets of a program is membership in the Boolean combinations of its cubes. -/
theorem run_membership {cmds : List (Cmd L)}
    (admissible : EveryStep space (Admissible space) [] cmds) :
    Returns (run space cmds) fun store => store.length = (absRun space cmds).length ∧
      ∀ i self, store[i]? = some self → ∀ p, Point space p →
        Returns (contains space (maxDepth space) self (space.all_dimensions_list.map p))
          fun answer => (answer = true ↔ p ∈ (absRun space cmds).getD i ∅) := by
  refine returns_mono (run_safe .nil admissible) ?_
  intro store safe
  refine ⟨safe.length_eq, fun i self found p point => ?_⟩
  obtain ⟨bound, rfl⟩ := List.getElem?_eq_some_iff.mp found
  obtain ⟨_, run, _, canonical, points⟩ := safe_item safe bound
  rw [item_nat bound] at run
  obtain rfl := Except.ok.inj run
  refine returns_mono (contains_spec canonical point) ?_
  intro answer decides
  rw [decides, points p point]
  rfl

/-- A layer over an empty sub-cube adds no point. -/
theorem hollow_layer_out {k : LayerElem L} {d : String} {ds : List String} {p : String → Item}
    (shaped : LayerElem.Shaped (space.domain d).type k)
    (ordered : (d :: ds).Sublist space.all_dimensions_list) (some : ds ≠ [])
    (point : Point space p) (typed : (p d).type = (space.domain d).type) :
    ¬ In space (mk (d :: ds) [(k, mk ds [])]) p := by
  have below : Canonical space (mk ds [] : CanonicalHyperCubeSet L) :=
    canonical_nothing some ((List.sublist_cons_self d ds).trans ordered)
  have enough := enough_depth ordered
  rw [List.length_cons, maxDepth] at enough
  have answer : Returns (contains space (maxDepth space) (mk (d :: ds) [(k, mk ds [])])
      (space.all_dimensions_list.map p)) (· = false) := by
    rw [maxDepth, contains, checkItem_ok point, ok_bind, if_neg (by simp [isAll]),
      if_neg (by simp [bool]), alignedItem_eq ordered.subset, ok_bind, List.map_cons, item_zero,
      ok_bind]
    unfold findLayer
    obtain ⟨hit, found, _⟩ := LayerElem.contains_spec shaped typed
    rw [found, ok_bind]
    cases hit with
    | false => exact returns_pure rfl
    | true =>
      have inner : ds.length ≤ space.all_dimensions_list.length := by omega
      simp only [↓reduceIte, pure, Except.pure, ok_bind]
      rw [if_neg (by simpa [isLastDimension] using some)]
      refine returns_mono (contains_layered (level_layered (below.level some)) some below.ordered.subset point
        inner) ?_
      intro answer decides
      rw [← Bool.not_eq_true, decides]
      exact has_nothing some p
  obtain ⟨_, found, rfl⟩ := answer
  unfold In
  rw [found]
  intro same
  cases same

section Ports

/-- The source and destination ports of TCP connections. -/
def portsInterval : LayerElem (Finset String) := .intervals ⟨[⟨1, 65535⟩]⟩

def ports : Space (Finset String) where
  manager := ⟨[("src_ports", .IntervalSet, portsInterval), ("dst_ports", .IntervalSet, portsInterval)]⟩
  all_dimensions_list := ["src_ports", "dst_ports"]
  nodup := by decide
  some_dimension := by decide
  domains := by
    have wide : CanonicalIntervalSet.Canonical ⟨[⟨1, 65535⟩]⟩ :=
      CanonicalIntervalSet.canonical_singleton (by simp [Interval.Proper])
    have some : ∃ x, x ∈ portsInterval := ⟨.int 1, ⟨1, 65535⟩, by simp, by simp [Interval.mem_iff]⟩
    intro d member
    simp only [List.mem_cons, List.not_mem_nil, or_false] at member
    rcases member with rfl | rfl
    · exact ⟨(.IntervalSet, portsInterval), by decide, rfl, wide, some⟩
    · exact ⟨(.IntervalSet, portsInterval), by decide, rfl, wide, some⟩

/-- A single port. -/
def port (n : Int) : LayerElem (Finset String) := .intervals ⟨[⟨n, n⟩]⟩

/-- A program that empties a set over the destination ports and then subtracts a source port. -/
def emptiedRun : List (Cmd (Finset String)) :=
  [.createFromCube [port 3] ["dst_ports"], .sub 0 0, .createFromCube [port 1] ["src_ports"],
    .sub 1 2, .or 3 2]

theorem port_fits {n : Int} (low : 1 ≤ n) (high : n ≤ 65535) {d : String}
    (known : d ∈ ports.all_dimensions_list) : CubeFits ports [port n] [d] := by
  have domain : ports.domain d = portsInterval := by
    have member : d ∈ ["src_ports", "dst_ports"] := known
    simp only [List.mem_cons, List.not_mem_nil, or_false] at member
    rcases member with rfl | rfl <;> rfl
  refine ⟨List.singleton_sublist.mpr known, .cons ?_ .nil⟩
  rw [domain]
  refine ⟨⟨rfl, CanonicalIntervalSet.canonical_singleton (Int.le_refl n)⟩, ?_⟩
  rintro (m | w) inside
  · obtain ⟨a, member, lower, upper⟩ := inside
    obtain rfl := List.mem_singleton.mp member
    refine ⟨⟨1, 65535⟩, by simp, ?_⟩
    rw [Interval.mem_iff]
    dsimp only at lower upper ⊢
    omega
  · exact inside.elim

/-- Four commands over the ports, none of which subtracts from an empty set. -/
def plainRun : List (Cmd (Finset String)) :=
  [.createFromCube [port 3] ["dst_ports"], .createFromCube [port 1] ["src_ports"], .or 0 1,
    .sub 2 0]

theorem plainRun_admissible : EveryStep ports (Admissible ports) [] plainRun := by
  refine ⟨⟨⟨by simp, port_fits (by decide) (by decide) (by decide)⟩, trivial⟩, ?_⟩
  intro store₁ run₁
  obtain rfl := Except.ok.inj run₁
  refine ⟨⟨⟨by simp, port_fits (by decide) (by decide) (by decide)⟩, trivial⟩, ?_⟩
  intro store₂ run₂
  obtain rfl := Except.ok.inj run₂
  refine ⟨⟨⟨by decide, by decide⟩, trivial⟩, ?_⟩
  intro store₃ run₃
  obtain rfl := Except.ok.inj run₃
  refine ⟨⟨⟨by decide, by decide⟩, ?_⟩, fun _ _ => trivial⟩
  intro self other foundSelf _ empty
  obtain rfl := Option.some.inj foundSelf
  cases empty

theorem run_membership_plain : Returns (run ports plainRun) fun store =>
    store.length = (absRun ports plainRun).length ∧
      ∀ i self, store[i]? = some self → ∀ p, Point ports p →
        Returns (contains ports (maxDepth ports) self (ports.all_dimensions_list.map p))
          fun answer => (answer = true ↔ p ∈ (absRun ports plainRun).getD i ∅) :=
  run_membership plainRun_admissible

theorem emptiedRun_fitting : EveryStep ports (Fitting ports) [] emptiedRun := by
  refine ⟨⟨by simp, port_fits (by decide) (by decide) (by decide)⟩, ?_⟩
  intro store₁ run₁
  obtain rfl := Except.ok.inj run₁
  refine ⟨⟨by decide, by decide⟩, ?_⟩
  intro store₂ run₂
  obtain rfl := Except.ok.inj run₂
  refine ⟨⟨by simp, port_fits (by decide) (by decide) (by decide)⟩, ?_⟩
  intro store₃ run₃
  obtain rfl := Except.ok.inj run₃
  refine ⟨⟨by decide, by decide⟩, ?_⟩
  intro store₄ run₄
  obtain rfl := Except.ok.inj run₄
  exact ⟨⟨by decide, by decide⟩, fun _ _ => trivial⟩

/-- The union at the end of the program holds ports that neither operand holds. -/
theorem emptiedRun_gains_points : EveryStep ports (Fitting ports) [] emptiedRun ∧
    ∃ store self, run ports emptiedRun = .ok store ∧ store[4]? = some self ∧
      ∃ p, Point ports p ∧ In ports self p ∧ p ∉ (absRun ports emptiedRun).getD 4 ∅ := by
  refine ⟨emptiedRun_fitting, _, _, rfl, rfl, fun _ => .int 5, ?_, by rfl, ?_⟩
  · intro d member
    have inside : Item.int 5 ∈ portsInterval := ⟨⟨1, 65535⟩, by simp, by simp [Interval.mem_iff]⟩
    simp only [ports, List.mem_cons, List.not_mem_nil, or_false] at member
    rcases member with rfl | rfl <;> exact inside
  · simp [absRun, absStep, emptiedRun, cubePoints, InCube, port, CanonicalIntervalSet.mem_iff,
      Interval.mem_iff]

theorem everyStep_take {ok : List (CanonicalHyperCubeSet L) → Cmd L → Prop} {cmds : List (Cmd L)}
    (every : EveryStep space ok store cmds) (n : Nat) : EveryStep space ok store (cmds.take n) := by
  induction cmds generalizing store n with
  | nil => simpa using every
  | cons cmd rest ih =>
    cases n with
    | zero => trivial
    | succ n => exact ⟨every.1, fun store' run => ih (every.2 store' run) n⟩

end Ports

end CanonicalHyperCubeSet
end Nca.CoreDS
