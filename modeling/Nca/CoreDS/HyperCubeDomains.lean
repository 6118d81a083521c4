import Nca.CoreDS.HyperCubeReduce

/-!
Dimensions may get other domains after a set was built. Reducing its active dimensions then keeps
the points within the new domains.
-/

namespace Nca.CoreDS
open Lib Python Space

variable {L : Type} [ExactSet L String]

namespace CanonicalHyperCubeSet

variable {space origin : Space L} {active new : List String} {layers : Layers L}
  {h : CanonicalHyperCubeSet L} {depth : Nat}

/-- Layers whose sub-cubes are replaced by ones with the same points have the same points. -/
theorem holds_relayered {a : String} {rest news : List String} {layers layers' : Layers L}
    {p : String → Item} (related : List.Forall₂ (fun e e' => e'.1 = e.1 ∧
      (Holds news e'.2 p ↔ Holds rest e.2 p)) layers layers') :
    Holds (a :: news) (mk (a :: news) layers') p ↔ Holds (a :: rest) (mk (a :: rest) layers) p := by
  rw [holds_cons, holds_cons]
  unfold LayersHold
  induction related with
  | nil => simp
  | @cons e e' _ _ first _ ih =>
    obtain ⟨key, same⟩ := first
    simp only [List.mem_cons, exists_eq_or_imp, ih, key, same]

theorem removeSomeActiveDimensions_points (sub : Sub origin active h) (nodup : active.Nodup)
    (known : active ⊆ space.all_dimensions_list) (some : new ≠ []) (sublist : new.Sublist active)
    (full : ∀ d ∈ active, d ∉ new → Full space d active h) (enough : active.length ≤ depth) :
    Returns (removeSomeActiveDimensions depth new h) fun r => r.active_dimensions = new ∧
      ∀ p, Point space p → (Holds new r p ↔ Holds active h p) := by
  induction active generalizing depth new h with
  | nil => exact (some (List.sublist_nil.mp sublist)).elim
  | cons a rest ih =>
    cases depth with
    | zero => simp at enough
    | succ depth =>
      obtain ⟨n, news, rfl⟩ := List.exists_cons_of_ne_nil some
      obtain ⟨fresh, nodupRest⟩ := List.nodup_cons.mp nodup
      have knownRest : rest ⊆ space.all_dimensions_list := fun d inside =>
        known (List.mem_cons_of_mem a inside)
      obtain ⟨⟨layers, rfl, parts, apart⟩, filled⟩ := sub
      have nonempty : layers ≠ [] := filled (List.cons_ne_nil a rest)
      rw [List.length_cons] at enough
      unfold removeSomeActiveDimensions
      rw [assert_bind sublist.subset, assert_bind some]
      by_cases done : a :: rest = n :: news
      · rw [if_pos done, ← done]
        exact returns_pure ⟨rfl, fun _ _ => Iff.rfl⟩
      · rw [if_neg done, item_zero, item_zero, ok_bind, ok_bind]
        by_cases same : a = n
        · subst same
          have inner : news.Sublist rest := List.cons_sublist_cons.mp sublist
          have fullRest : ∀ d ∈ rest, d ∉ news → ∀ e ∈ layers, Full space d rest e.2 := by
            intro d member out e inside
            have other : d ∉ a :: news := fun h => by
              rcases List.mem_cons.mp h with rfl | later
              · exact fresh member
              · exact out later
            exact (full d (List.mem_cons_of_mem a member) other e inside).2
          rw [if_pos rfl]
          by_cases more : news = []
          · subst more
            rw [if_neg (by simp)]
            refine returns_pure ⟨rfl, fun p point => holds_relayered ?_⟩
            refine List.forall₂_map_right_iff.mpr (List.forall₂_same.mpr fun e member => ⟨rfl, ?_⟩)
            exact iff_of_true trivial (full_all knownRest (parts.subs e member)
              (fun d inside => fullRest d inside (by simp) e member) point)
          · rw [List.tail_cons, if_pos more]
            have each : ∀ e ∈ layers, Returns (do
                pure (e.1, ← removeSomeActiveDimensions depth news e.2)) fun e' => e'.1 = e.1 ∧
                  ∀ p, Point space p → (Holds news e'.2 p ↔ Holds rest e.2 p) := by
              intro e member
              refine returns_bind (ih (parts.subs e member) nodupRest knownRest more inner
                (fun d inside out => fullRest d inside out e member) (by omega)) ?_
              rintro sub_elem ⟨_, holds⟩
              exact returns_pure ⟨rfl, holds⟩
            refine returns_bind (returns_mapM each) fun layers' related => ?_
            refine returns_pure ⟨rfl, fun p point => holds_relayered ?_⟩
            exact related.imp fun e e' both => ⟨both.1, both.2 p point⟩
        · have inner := sublist_tail same sublist
          have fullHead : ∀ e ∈ layers, e.1 = space.domain a := fun e member =>
            (full a List.mem_cons_self (fun inside => fresh (inner.subset inside)) e member).1 rfl
          obtain ⟨e, rfl⟩ := single_layer parts nonempty fun e member e' member' => by
            obtain ⟨x, inside⟩ := (parts.keys e member).some
            refine entry_unique parts member member' inside ?_
            rw [fullHead e' member', ← fullHead e member]
            exact inside
          have below := parts.subs e List.mem_cons_self
          obtain ⟨r, rs, rfl⟩ := List.exists_cons_of_ne_nil
            (fun none => some (List.sublist_nil.mp (none ▸ inner)) : rest ≠ [])
          obtain ⟨shape, partsBelow, _⟩ := level_mk below.1
          have layersBelow : e.2.getLayers = .ok e.2.layers := by
            rw [shape]
            rfl
          rw [if_neg same, List.foldlM_cons, layersBelow, ok_bind, foldl_set_layers
            (keys_nodup partsBelow)]
          have moved : mk (a :: r :: rs).tail e.2.layers = e.2 := shape.symm
          refine returns_mono (moved.symm ▸ ih below nodupRest knownRest some inner
            (fun d member out => (full d (List.mem_cons_of_mem a member) out e
              List.mem_cons_self).2) (by omega)) ?_
          rintro r' ⟨sameActive, holds⟩
          refine ⟨sameActive, fun p point => (holds p point).trans ?_⟩
          rw [show e = (e.1, e.2) from rfl, single_holds, fullHead e List.mem_cons_self]
          exact (and_iff_right (point a (known List.mem_cons_self))).symm

theorem reduceActiveDimensions_points (same : origin.all_dimensions_list = space.all_dimensions_list)
    (canonical : Canonical origin h) :
    Returns (reduceActiveDimensions space h) fun r =>
      ∀ p, Point space p → (Has r p ↔ Has h p) := by
  have ordered : h.active_dimensions.Sublist space.all_dimensions_list := same ▸ canonical.ordered
  by_cases trivially : (!h.bool || h.active_dimensions.isEmpty) = true
  · unfold reduceActiveDimensions
    rw [if_pos trivially]
    exact returns_pure fun _ _ => Iff.rfl
  · rw [Bool.or_eq_true, not_or, Bool.not_eq_true', Bool.not_eq_false, List.isEmpty_iff] at trivially
    obtain ⟨filled, some⟩ := trivially
    have level := canonical.level some
    have sub : Sub origin h.active_dimensions h := by
      refine ⟨level, fun _ => ?_⟩
      obtain ⟨d, ds, active⟩ := List.exists_cons_of_ne_nil some
      exact (level_bool (active ▸ level)).mp filled
    obtain ⟨new, orderedNew, memNew, reduced⟩ := reduceActiveDimensions_eq sub some ordered
    rw [reduced]
    by_cases everything : new = []
    · rw [if_pos everything]
      refine returns_pure fun p point => iff_of_true trivial ?_
      refine full_all ordered.subset sub (fun d member => ?_) point
      by_contra partly
      have inside := (memNew d).mpr ⟨member, partly⟩
      rw [everything] at inside
      cases inside
    · rw [if_neg everything]
      have sublist : new.Sublist h.active_dimensions :=
        sublist_of_subset space.nodup orderedNew ordered fun d member => ((memNew d).mp member).1
      refine returns_mono (removeSomeActiveDimensions_points sub (space.nodup.sublist ordered)
        ordered.subset everything sublist (fun d member out => ?_) (enough_depth ordered)) ?_
      · by_contra partly
        exact out ((memNew d).mpr ⟨member, partly⟩)
      · rintro r ⟨active, points⟩
        unfold Has
        rw [active]
        exact points

end CanonicalHyperCubeSet
end Nca.CoreDS
