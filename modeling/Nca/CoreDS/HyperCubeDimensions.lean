import Nca.CoreDS.HyperCubeCombine

/-!
Active dimensions. A dimension whose keys are all the whole domain is needless, and only such a
dimension is; adding and removing needless dimensions changes neither points nor canonical form.
-/

namespace Nca.CoreDS
open Lib Python Space

variable {L : Type} [ExactSet L String]

namespace CanonicalHyperCubeSet

variable {space : Space L} {d : String} {ds active new : List String} {layers layers' : Layers L}
  {h h' : CanonicalHyperCubeSet L} {depth : Nat}

section Order

theorem sublist_filter {dims : List String} (nodup : dims.Nodup) (sublist : ds.Sublist dims) :
    dims.filter (fun d => decide (d ∈ ds)) = ds := by
  induction sublist with
  | slnil => rfl
  | cons a sublist ih =>
    obtain ⟨fresh, rest⟩ := List.nodup_cons.mp nodup
    rw [List.filter_cons_of_neg (by simpa using fun inside => fresh (sublist.subset inside))]
    exact ih rest
  | cons_cons a sublist ih =>
    obtain ⟨fresh, rest⟩ := List.nodup_cons.mp nodup
    rw [List.filter_cons_of_pos (by simp)]
    congr 1
    refine Eq.trans (List.filter_congr fun d member => ?_) (ih rest)
    have other : d ≠ a := fun same => fresh (same ▸ member)
    simp [other]

theorem sublist_of_subset {dims : List String} (nodup : dims.Nodup) (sublist : ds.Sublist dims)
    (sublist' : active.Sublist dims) (subset : ds ⊆ active) : ds.Sublist active := by
  rw [← sublist_filter nodup sublist, ← sublist_filter nodup sublist']
  refine List.monotone_filter_right dims fun d inside => ?_
  simp only [decide_eq_true_eq] at inside ⊢
  exact subset inside

theorem subsetByOrder_sublist (space : Space L) (S : List String) :
    (getDimensionsSubsetByOrder space S).Sublist space.all_dimensions_list :=
  List.filter_sublist

theorem mem_subsetByOrder {S : List String} :
    d ∈ getDimensionsSubsetByOrder space S ↔ d ∈ space.all_dimensions_list ∧ d ∈ S := by
  simp [getDimensionsSubsetByOrder]

theorem sublist_tail {a n : String} {rest news : List String} (differ : a ≠ n)
    (sublist : (n :: news).Sublist (a :: rest)) : (n :: news).Sublist rest := by
  cases sublist with
  | cons _ inner => exact inner
  | cons_cons _ _ => exact (differ rfl).elim

end Order

section Needless

/-- Every key for this dimension is the whole domain. -/
def Full (space : Space L) (d : String) : List String → CanonicalHyperCubeSet L → Prop
  | [], _ => True
  | d' :: ds, h => ∀ e ∈ h.layers, (d' = d → e.1 = space.domain d) ∧ Full space d ds e.2

/-- The value of this dimension makes no difference. -/
def Needless (space : Space L) (d : String) (ds : List String) (h : CanonicalHyperCubeSet L) :
    Prop :=
  ∀ p x, Point space p → x ∈ space.domain d →
    (Holds ds h (Function.update p d x) ↔ Holds ds h p)

theorem full_fresh (fresh : d ∉ ds) : Full space d ds h := by
  induction ds generalizing h with
  | nil => trivial
  | cons d' ds ih =>
    intro e _
    refine ⟨fun same => (fresh (same ▸ List.mem_cons_self)).elim, ih fun inside => ?_⟩
    exact fresh (List.mem_cons_of_mem d' inside)

theorem full_needless (nodup : ds.Nodup) (known : d ∈ space.all_dimensions_list)
    (full : Full space d ds h) : Needless space d ds h := by
  induction ds generalizing h with
  | nil => exact fun _ _ _ _ => Iff.rfl
  | cons d' ds ih =>
    obtain ⟨fresh, rest⟩ := List.nodup_cons.mp nodup
    intro p x point inside
    by_cases same : d' = d
    · subst same
      unfold Holds
      refine exists_congr fun e => and_congr_right fun member => ?_
      rw [(full e member).1 rfl, Function.update_self, holds_update fresh]
      exact and_congr_left' (iff_of_true inside (point d' known))
    · unfold Holds
      refine exists_congr fun e => and_congr_right fun member => ?_
      rw [Function.update_of_ne same, ih rest (full e member).2 p x point inside]

theorem needless_full (nodup : ds.Nodup) (known : ds ⊆ space.all_dimensions_list)
    (level : Level space ds h) (needless : Needless space d ds h) : Full space d ds h := by
  induction ds generalizing h with
  | nil => trivial
  | cons d' ds ih =>
    obtain ⟨fresh, rest⟩ := List.nodup_cons.mp nodup
    have below : ds ⊆ space.all_dimensions_list := fun d'' inside =>
      known (List.mem_cons_of_mem d' inside)
    obtain ⟨layers, rfl, parts, apart⟩ := level
    have distinct := (pairwise_distinct rest below parts).mp apart
    intro e member
    have key := parts.keys e member
    obtain ⟨x, inside⟩ := key.some
    by_cases same : d' = d
    · subst same
      refine ⟨fun _ => ?_, full_fresh fresh⟩
      refine LayerElem.ext key.shaped (domain_shaped (known List.mem_cons_self)) fun y => ?_
      refine ⟨key.within y, fun valid => ?_⟩
      obtain ⟨q, point⟩ := point_exists space
      obtain ⟨p, pointP, holdsP, _⟩ := sub_point (parts.subs e member) rest below point
      have moved : ∀ r, Point space r → (Holds ds e.2 r ↔
          Holds (d' :: ds) (mk (d' :: ds) layers) (Function.update r d' y)) := by
        intro r pointR
        rw [← holds_at (d' :: ds) parts fresh member inside r, ← needless _ y
          (point_update pointR (key.within x inside)) valid, Function.update_idem]
      obtain ⟨e', member', hit, _⟩ := (moved p pointP).mp holdsP
      rw [Function.update_self] at hit
      -- the value lies under a sub-cube with the same points, hence in the same key
      have samePoints : SamePoints space ds e.2 e'.2 := fun r pointR => by
        rw [moved r pointR, holds_at (d' :: ds) parts fresh member' hit r]
      rw [distinct_unique distinct member member' samePoints]
      exact hit
    · refine ⟨fun h => (same h).elim, ih rest below (parts.subs e member).1 ?_⟩
      intro p y point valid
      have other : d ≠ d' := fun h => same h.symm
      rw [← holds_at (d' :: ds) parts fresh member inside p,
        ← holds_at (d' :: ds) parts fresh member inside (Function.update p d y),
        Function.update_comm other]
      exact needless _ y (point_update point (key.within x inside)) valid

/-- A sub-cube that is full in all its dimensions has every point. -/
theorem full_all {origin : Space L} (known : ds ⊆ space.all_dimensions_list)
    (sub : Sub origin ds h) (full : ∀ d ∈ ds, Full space d ds h) {p : String → Item} (point : Point space p) :
    Holds ds h p := by
  induction ds generalizing h with
  | nil => trivial
  | cons d ds ih =>
    obtain ⟨⟨layers, rfl, parts, _⟩, some⟩ := sub
    obtain ⟨e, member⟩ := List.exists_mem_of_ne_nil _ (some (List.cons_ne_nil d ds))
    refine ⟨e, member, ?_, ?_⟩
    · rw [(full d List.mem_cons_self e member).1 rfl]
      exact point d (known List.mem_cons_self)
    · refine ih (fun d' inside => known (List.mem_cons_of_mem d inside)) (parts.subs e member) ?_
      exact fun d' inside => (full d' (List.mem_cons_of_mem d inside) e member).2

end Needless

section Relayer

/-- Layers with the same keys, over sub-cubes with the same points. -/
abbrev Relayered (space : Space L) (ds ds' : List String) (layers layers' : Layers L) : Prop :=
  List.Forall₂ (fun e e' => e'.1 = e.1 ∧ Sub space ds' e'.2 ∧
    ∀ p, Point space p → (Holds ds' e'.2 p ↔ Holds ds e.2 p)) layers layers'

theorem relayered_member {ds' : List String} (related : Relayered space ds ds' layers layers')
    {e' : LayerElem L × CanonicalHyperCubeSet L} (member : e' ∈ layers') :
    ∃ e ∈ layers, e'.1 = e.1 ∧ Sub space ds' e'.2 ∧
      ∀ p, Point space p → (Holds ds' e'.2 p ↔ Holds ds e.2 p) := by
  induction related with
  | nil => cases member
  | cons first rest ih =>
    rcases List.mem_cons.mp member with rfl | later
    · exact ⟨_, List.mem_cons_self, first⟩
    · obtain ⟨e, inside, same⟩ := ih later
      exact ⟨e, List.mem_cons_of_mem _ inside, same⟩

theorem relayered_member' {ds' : List String} (related : Relayered space ds ds' layers layers')
    {e : LayerElem L × CanonicalHyperCubeSet L} (member : e ∈ layers) :
    ∃ e' ∈ layers', e'.1 = e.1 ∧ Sub space ds' e'.2 ∧
      ∀ p, Point space p → (Holds ds' e'.2 p ↔ Holds ds e.2 p) := by
  induction related with
  | nil => cases member
  | cons first rest ih =>
    rcases List.mem_cons.mp member with rfl | later
    · exact ⟨_, List.mem_cons_self, first⟩
    · obtain ⟨e', inside, same⟩ := ih later
      exact ⟨e', List.mem_cons_of_mem _ inside, same⟩

theorem relayered_pairwise {ds' : List String} (related : Relayered space ds ds' layers layers')
    (parts : Parts space d (Sub space ds) layers) (distinct : Distinct space ds layers) :
    Parts space d (Sub space ds') layers' ∧ Distinct space ds' layers' := by
  have apart := parts.apart
  refine ⟨⟨?_, ?_, ?_⟩, ?_⟩
  · intro e' member
    obtain ⟨e, inside, same, _⟩ := relayered_member related member
    exact same ▸ parts.keys e inside
  · intro e' member
    exact (relayered_member related member).elim fun e found => found.2.2.1
  · clear parts distinct
    induction related with
    | nil => exact .nil
    | cons first rest ih =>
      obtain ⟨head, tail⟩ := List.pairwise_cons.mp apart
      refine List.pairwise_cons.mpr ⟨?_, ih tail⟩
      intro e' member x inside
      obtain ⟨e, member', same, _⟩ := relayered_member rest member
      rw [same]
      exact head e member' x (first.1 ▸ inside)
  · clear parts apart
    induction related with
    | nil => exact .nil
    | cons first rest ih =>
      obtain ⟨head, tail⟩ := List.pairwise_cons.mp distinct
      refine List.pairwise_cons.mpr ⟨?_, ih tail⟩
      intro e' member samePoints
      obtain ⟨e, member', _, _, points⟩ := relayered_member rest member
      refine head e member' fun p point => ?_
      rw [← first.2.2 p point, ← points p point]
      exact samePoints p point

theorem relayered_sub {ds' : List String} (related : Relayered space ds ds' layers layers')
    (nodup : ds.Nodup) (known : ds ⊆ space.all_dimensions_list) (nodup' : ds'.Nodup)
    (known' : ds' ⊆ space.all_dimensions_list)
    (sub : Sub space (d :: ds) (mk (d :: ds) layers)) :
    Sub space (d :: ds') (mk (d :: ds') layers') ∧
      ∀ p, Point space p → (Holds (d :: ds') (mk (d :: ds') layers') p ↔
        Holds (d :: ds) (mk (d :: ds) layers) p) := by
  obtain ⟨⟨_, same, parts, apart⟩, some⟩ := sub
  cases same
  obtain ⟨parts', distinct'⟩ := relayered_pairwise related parts
    ((pairwise_distinct nodup known parts).mp apart)
  refine ⟨⟨⟨layers', rfl, parts', (pairwise_distinct nodup' known' parts').mpr distinct'⟩, ?_⟩, ?_⟩
  · intro _ none
    change layers' = [] at none
    subst none
    cases related
    exact some (List.cons_ne_nil d ds) rfl
  · intro p point
    constructor
    · rintro ⟨e', member, inside, holds⟩
      obtain ⟨e, member', key, _, points⟩ := relayered_member related member
      exact ⟨e, member', key ▸ inside, (points p point).mp holds⟩
    · rintro ⟨e, member, inside, holds⟩
      obtain ⟨e', member', key, _, points⟩ := relayered_member' related member
      exact ⟨e', member', key ▸ inside, (points p point).mpr holds⟩

end Relayer

end CanonicalHyperCubeSet
end Nca.CoreDS
