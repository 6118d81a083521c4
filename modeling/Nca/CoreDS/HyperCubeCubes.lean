import Nca.CoreDS.HyperCubeRuns
import Nca.CoreDS.HyperCubeContainment

/-!
The cubes of a hypercube set. Every path through the layers is a cube; the points of the set are
those of its cubes.
-/

namespace Nca.CoreDS
open Lib Python Space

variable {L : Type} [ExactSet L String]

namespace CanonicalHyperCubeSet

section Cubes
variable (space : Space L)

def getCubesListFromLayers : Nat → CanonicalHyperCubeSet L → Except Failure (List (List (LayerElem L)))
  | 0, _ => .error .recursion
  | _ + 1, emptyInterval => .error .attribute
  | depth + 1, mk active layers =>
    if isLastDimension active then pure (layers.map fun e => [e.1])
    else layers.foldlM (fun res e => do
      let sub_res ← getCubesListFromLayers depth e.2
      pure (res ++ sub_res.map fun sub_arr => e.1 :: sub_arr)) []

/-- `len(self)`. -/
def len (self : CanonicalHyperCubeSet L) : Except Failure Nat :=
  if self.active_dimensions = [] then pure 1
  else do pure (← getCubesListFromLayers (maxDepth space) self).length

/-- The cubes of `for cube in self`. -/
def iter (self : CanonicalHyperCubeSet L) : Except Failure (List (List (LayerElem L))) :=
  if self.active_dimensions = [] then do pure [← getEntireSpaceCube space space.all_dimensions_list]
  else getCubesListFromLayers (maxDepth space) self

end Cubes

/-- A set whose active dimensions are in order and whose keys exclude each other. -/
structure WellLayered (space : Space L) (h : CanonicalHyperCubeSet L) : Prop where
  ordered : h.active_dimensions.Sublist space.all_dimensions_list
  layered : h.active_dimensions ≠ [] → Layered space h.active_dimensions h

/-- A path through the layers over these dimensions. -/
def IsCube : List String → CanonicalHyperCubeSet L → List (LayerElem L) → Prop
  | [], _, cube => cube = []
  | _ :: ds, h, cube => ∃ e ∈ h.layers, ∃ sub_arr, cube = e.1 :: sub_arr ∧ IsCube ds e.2 sub_arr

variable {space : Space L} {d : String} {ds : List String} {layers : Layers L}
  {h : CanonicalHyperCubeSet L} {depth : Nat}

theorem canonical_wellLayered (canonical : Canonical space h) : WellLayered space h :=
  ⟨canonical.ordered, fun active => level_layered (canonical.level active)⟩

theorem inCube_cons {value : LayerElem L} {cube : List (LayerElem L)} {p : String → Item} :
    InCube (value :: cube) (d :: ds) p ↔ p d ∈ value ∧ InCube cube ds p := by
  simp [InCube]

theorem isCube_keys (layered : Layered space ds h) {cube : List (LayerElem L)} (isCube : IsCube ds h cube) :
    List.Forall₂ (fun value d => Key space d value) cube ds := by
  induction ds generalizing h cube with
  | nil =>
    obtain rfl : cube = [] := isCube
    exact .nil
  | cons d ds ih =>
    obtain ⟨layers, rfl, parts⟩ := layered
    obtain ⟨e, member, sub_arr, rfl, below⟩ := isCube
    exact .cons (parts.keys e member) (ih (parts.subs e member) below)

/-- The points of the set are those of its cubes. -/
theorem holds_iff_cube {p : String → Item} : Holds ds h p ↔ ∃ cube, IsCube ds h cube ∧ InCube cube ds p := by
  induction ds generalizing h with
  | nil => exact iff_of_true trivial ⟨[], rfl, by simp [InCube]⟩
  | cons d ds ih =>
    constructor
    · rintro ⟨e, member, inside, holds⟩
      obtain ⟨sub_arr, below, inside'⟩ := ih.mp holds
      exact ⟨e.1 :: sub_arr, ⟨e, member, sub_arr, rfl, below⟩, inCube_cons.mpr ⟨inside, inside'⟩⟩
    · rintro ⟨cube, ⟨e, member, sub_arr, same, below⟩, inside⟩
      rw [same] at inside
      obtain ⟨inside, inside'⟩ := inCube_cons.mp inside
      exact ⟨e, member, inside, ih.mpr ⟨sub_arr, below, inside'⟩⟩

theorem getCubesListFromLayers_spec (layered : Layered space ds h) (some : ds ≠ [])
    (enough : ds.length ≤ depth) :
    Returns (getCubesListFromLayers depth h) fun cubes => ∀ cube, cube ∈ cubes ↔ IsCube ds h cube := by
  induction ds generalizing h depth with
  | nil => exact (some rfl).elim
  | cons d ds ih =>
    cases depth with
    | zero => simp at enough
    | succ depth =>
      obtain ⟨layers, rfl, parts⟩ := layered
      unfold getCubesListFromLayers
      by_cases last : ds = []
      · subst last
        rw [if_pos (isLastDimension_iff.mpr rfl)]
        refine returns_pure fun cube => ?_
        simp [IsCube, eq_comm]
      · rw [if_neg (fun h => last (isLastDimension_iff.mp h))]
        rw [List.length_cons] at enough
        apply returns_foldlM (fun before res => ∀ cube, cube ∈ res ↔ IsCube (d :: ds) (mk (d :: ds) before) cube)
        · exact fun cube => by simp [IsCube]
        · intro before e after res whole members
          have listed : e ∈ layers := by
            rw [whole]
            exact List.mem_append_right before List.mem_cons_self
          apply returns_bind (ih (parts.subs e listed) last (by omega))
          intro sub_res below
          refine returns_pure fun cube => ?_
          rw [List.mem_append, members]
          show _ ↔ ∃ e' ∈ before ++ [e], _
          simp only [List.mem_append, List.mem_singleton, or_and_right, exists_or, exists_eq_left]
          apply or_congr_right
          rw [List.mem_map]
          constructor
          · intro ⟨sub_arr, listed, same⟩
            exact ⟨sub_arr, same.symm, (below sub_arr).mp listed⟩
          · intro ⟨sub_arr, same, path⟩
            exact ⟨sub_arr, (below sub_arr).mpr path, same.symm⟩

theorem active_enough (ordered : ds.Sublist space.all_dimensions_list) : ds.length ≤ maxDepth space := by
  have shorter := ordered.length_le
  unfold maxDepth
  omega

/-- The cubes of a set that is not the whole space. -/
theorem iter_active (wellLayered : WellLayered space h) (some : h.active_dimensions ≠ []) :
    Returns (iter space h) fun cubes => ∀ cube, cube ∈ cubes ↔ IsCube h.active_dimensions h cube := by
  unfold iter
  rw [if_neg some]
  exact getCubesListFromLayers_spec (wellLayered.layered some) some (active_enough wellLayered.ordered)

/-- The number of cubes is the number of turns of an iteration. -/
theorem len_iter : len space h = (do pure (← iter space h).length) ∨ h.active_dimensions = [] := by
  by_cases all : h.active_dimensions = []
  · exact Or.inr all
  · unfold len iter
    rw [if_neg all, if_neg all]
    exact Or.inl rfl

end CanonicalHyperCubeSet
end Nca.CoreDS
