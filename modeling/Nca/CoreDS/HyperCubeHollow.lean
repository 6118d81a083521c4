import Nca.CoreDS.HyperCubeRuns

/-!
What a subtraction from an empty set can leave: layers that lead to empty sub-cubes only. Such a
set is no canonical form, yet no operation of the subtraction fails on it and it has no point, so
every single subtraction of canonical sets has the right members.
-/

namespace Nca.CoreDS
open Lib Python Space

variable {L : Type} [ExactSet L String]

namespace CanonicalHyperCubeSet

variable {space : Space L} {d : String} {ds active new before tail kept : List String}
  {layers layers' : Layers L} {h other : CanonicalHyperCubeSet L} {depth : Nat}

/-- Layers over the dimensions `before`, all of which lead to a set without layers. -/
def Bare (space : Space L) (tail : List String) :
    List String → CanonicalHyperCubeSet L → Prop
  | [], h => h = mk tail []
  | d :: before, h => ∃ layers, h = mk (d :: (before ++ tail)) layers ∧
      Parts space d (Bare space tail before) layers

theorem bare_mk (bare : Bare space tail before h) : h = mk (before ++ tail) h.layers := by
  cases before with
  | nil =>
    obtain rfl : h = mk tail [] := bare
    rfl
  | cons d before =>
    obtain ⟨layers, rfl, _⟩ := bare
    rfl

theorem bare_keys (bare : Bare space tail before h) : (Dict.keys h.layers).Nodup := by
  cases before with
  | nil =>
    obtain rfl : h = mk tail [] := bare
    exact List.nodup_nil
  | cons d before =>
    obtain ⟨layers, rfl, parts⟩ := bare
    exact keys_nodup parts

theorem bare_none (space : Space L) (tail before : List String) :
    Bare space tail before (mk (before ++ tail) []) := by
  cases before with
  | nil => exact rfl
  | cons d before => exact ⟨[], rfl, ⟨by simp, by simp, .nil⟩⟩

theorem bare_holds (some : tail ≠ []) (bare : Bare space tail before h) (p : String → Item) :
    ¬ Holds (before ++ tail) h p := by
  induction before generalizing h with
  | nil =>
    obtain rfl : h = mk tail [] := bare
    exact has_nothing some p
  | cons d before ih =>
    obtain ⟨layers, rfl, parts⟩ := bare
    rintro ⟨e, member, _, holds⟩
    exact ih (parts.subs e member) holds

theorem bare_sound (some : tail ≠ []) : EqSound (before ++ tail) (Bare space tail before) :=
  fun _ _ left right _ p => iff_of_false (bare_holds some left p) (bare_holds some right p)

theorem bare_layered (bare : Bare space tail before h) : Layered space (before ++ tail) h := by
  induction before generalizing h with
  | nil =>
    obtain rfl : h = mk tail [] := bare
    cases tail with
    | nil => trivial
    | cons d ds => exact ⟨[], rfl, by simp, by simp, .nil⟩
  | cons d before ih =>
    obtain ⟨layers, rfl, parts⟩ := bare
    exact ⟨layers, rfl, parts_mono parts fun sub below => ih below⟩

theorem bare_keyAt {k : LayerElem L} (bare : Bare space tail before h)
    (found : KeyAt d (before ++ tail) h k) : d ∈ before := by
  induction before generalizing h with
  | nil =>
    obtain rfl : h = mk tail [] := bare
    cases tail with
    | nil => exact found.elim
    | cons d' ds => simp [KeyAt] at found
  | cons d' before ih =>
    obtain ⟨layers, rfl, parts⟩ := bare
    rcases found with ⟨rfl, _⟩ | ⟨e, member, below⟩
    · exact List.mem_cons_self
    · exact List.mem_cons_of_mem d' (ih (parts.subs e member) below)

theorem hollow_bare (known : before ⊆ space.all_dimensions_list)
    (hollow : Hollow space before (before ++ tail) h) : Bare space tail before h := by
  induction before generalizing h with
  | nil => exact hollow
  | cons d before ih =>
    obtain ⟨rest, sub, same, rfl, below⟩ := hollow
    rw [List.cons_append] at same
    obtain ⟨_, rfl⟩ := List.cons.inj same
    refine ⟨_, rfl, ⟨?_, ?_, by simp⟩⟩
    · intro e member
      rw [List.mem_singleton.mp member]
      exact domain_key (known List.mem_cons_self)
    · intro e member
      rw [List.mem_singleton.mp member]
      exact ih (fun d' inside => known (List.mem_cons_of_mem d inside)) below

theorem subAux_bare (some : tail ≠ []) (bare : Bare space tail before h)
    (sub : Sub space (before ++ tail) other) (enough : (before ++ tail).length ≤ depth) :
    Returns (subAux depth h other) (Bare space tail before) := by
  induction before generalizing depth h other with
  | nil =>
    obtain rfl : h = mk tail [] := bare
    obtain ⟨z, after, rfl⟩ := List.exists_cons_of_ne_nil some
    obtain ⟨⟨right, rfl, _⟩, _⟩ := sub
    cases depth with
    | zero => simp at enough
    | succ depth =>
      unfold subAux
      rw [assert_bind rfl]
      exact ⟨_, rfl, rfl⟩
  | cons d before ih =>
    obtain ⟨left, rfl, parts⟩ := bare
    obtain ⟨⟨right, rfl, parts', _⟩, _⟩ := sub
    cases depth with
    | zero => simp at enough
    | succ depth =>
      rw [List.cons_append, List.length_cons] at enough
      refine returns_mono (subAux_layers (bare_sound some) parts parts' fun _ s s' left right => ?_) ?_
      · refine returns_mono (ih left right (by omega)) ?_
        intro r bare
        have none := bare_holds some bare
        exact ⟨fun _ => bare, fun _ => none, fun p =>
          iff_of_false (none p) fun both => bare_holds some left p both.1⟩
      · rintro r ⟨res, rfl, parts, _⟩
        exact ⟨res, rfl, parts⟩

theorem parts_relayered {below below' : CanonicalHyperCubeSet L → Prop}
    (related : List.Forall₂ (fun e e' => e'.1 = e.1 ∧ below' e'.2) layers layers')
    (parts : Parts space d below layers) : Parts space d below' layers' := by
  induction related with
  | nil => exact ⟨by simp, by simp, .nil⟩
  | @cons e e' rest rest' first others ih =>
    obtain ⟨keys, subs, apart⟩ := parts
    obtain ⟨headApart, tailApart⟩ := List.pairwise_cons.mp apart
    have inner := ih ⟨fun e member => keys e (List.mem_cons_of_mem _ member),
      fun e member => subs e (List.mem_cons_of_mem _ member), tailApart⟩
    refine ⟨?_, ?_, List.pairwise_cons.mpr ⟨?_, inner.apart⟩⟩
    · refine List.forall_mem_cons.mpr ⟨?_, inner.keys⟩
      rw [first.1]
      exact keys e List.mem_cons_self
    · exact List.forall_mem_cons.mpr ⟨first.2, inner.subs⟩
    · intro a member x inside
      rw [first.1] at inside
      clear ih inner keys subs apart tailApart
      induction others with
      | nil => cases member
      | cons second others ih =>
        rcases List.mem_cons.mp member with rfl | later
        · rw [second.1]
          exact headApart _ List.mem_cons_self x inside
        · exact ih (fun b inside => headApart b (List.mem_cons_of_mem _ inside)) later

theorem removeSomeActiveDimensions_bare (some : tail ≠ []) (bare : Bare space tail before h)
    (nodup : (before ++ tail).Nodup) (sublist : kept.Sublist before)
    (full : ∀ d ∈ before, d ∉ kept → Full space d (before ++ tail) h)
    (enough : (before ++ tail).length ≤ depth) :
    Returns (removeSomeActiveDimensions depth (kept ++ tail) h) (Bare space tail kept) := by
  have filled : ∀ ds : List String, ds ++ tail ≠ [] := fun ds =>
    List.append_ne_nil_of_right_ne_nil _ some
  induction before generalizing depth kept h with
  | nil =>
    obtain rfl : h = mk tail [] := bare
    obtain rfl := List.sublist_nil.mp sublist
    cases depth with
    | zero => simp [some] at enough
    | succ depth =>
      have some : tail ≠ [] := some
      rw [List.nil_append]
      unfold removeSomeActiveDimensions
      rw [assert_bind (List.Subset.refl _), assert_bind some, if_pos rfl]
      exact returns_pure rfl
  | cons d before ih =>
    cases depth with
    | zero => simp at enough
    | succ depth =>
      obtain ⟨layers, rfl, parts⟩ := bare
      rw [List.cons_append] at nodup enough
      obtain ⟨fresh, nodupRest⟩ := List.nodup_cons.mp nodup
      rw [List.length_cons] at enough
      have subset : kept ++ tail ⊆ d :: (before ++ tail) := by
        rw [← List.cons_append]
        exact (sublist.append (List.Sublist.refl tail)).subset
      unfold removeSomeActiveDimensions
      rw [assert_bind subset, assert_bind (filled kept)]
      by_cases done : d :: (before ++ tail) = kept ++ tail
      · rw [if_pos done]
        have same : kept = d :: before := List.append_cancel_right (by
          rw [← done]
          rfl)
        rw [same]
        exact returns_pure ⟨layers, rfl, parts⟩
      · rw [if_neg done, item_zero, ok_bind]
        by_cases stays : d ∈ kept
        · obtain ⟨kept, rfl⟩ : ∃ rest, kept = d :: rest := by
            cases sublist with
            | cons _ inner => exact (fresh (List.mem_append_left _ (inner.subset stays))).elim
            | cons_cons _ inner => exact ⟨_, rfl⟩
          have inner := List.cons_sublist_cons.mp sublist
          rw [List.cons_append, item_zero, ok_bind, if_pos rfl, List.tail_cons,
            if_pos (filled kept)]
          have each : ∀ e ∈ layers, Returns (do
              pure (e.1, ← removeSomeActiveDimensions depth (kept ++ tail) e.2)) fun e' =>
              e'.1 = e.1 ∧ Bare space tail kept e'.2 := by
            intro e member
            refine returns_bind (ih (parts.subs e member) nodupRest inner (fun d' inside out => ?_)
              (by omega)) ?_
            · have other : d' ∉ d :: kept := fun h => by
                rcases List.mem_cons.mp h with rfl | later
                · exact fresh (List.mem_append_left _ inside)
                · exact out later
              exact (full d' (List.mem_cons_of_mem d inside) other e member).2
            · exact fun r bare => returns_pure ⟨rfl, bare⟩
          refine returns_bind (returns_mapM each) ?_
          intro layers' related
          exact returns_pure ⟨layers', rfl, parts_relayered related parts⟩
        · have inner : kept.Sublist before := by
            cases sublist with
            | cons _ inner => exact inner
            | cons_cons _ inner => exact (stays List.mem_cons_self).elim
          obtain ⟨n, news, whole⟩ := List.exists_cons_of_ne_nil (filled kept)
          have differ : ¬ d = n := by
            rintro rfl
            have member : d ∈ kept ++ tail := by
              rw [whole]
              exact List.mem_cons_self
            rcases List.mem_append.mp member with inside | inside
            · exact stays inside
            · exact fresh (List.mem_append_right _ inside)
          have head : item (kept ++ tail) 0 = .ok n := by
            rw [whole]
            exact item_zero n news
          have fullHead : ∀ e ∈ layers, e.1 = space.domain d := fun e member =>
            (full d List.mem_cons_self stays e member).1 rfl
          have fullRest : ∀ e ∈ layers, ∀ d' ∈ before, d' ∉ kept →
              Full space d' (before ++ tail) e.2 := fun e member d' inside out =>
            (full d' (List.mem_cons_of_mem d inside) out e member).2
          rw [head, ok_bind, if_neg differ]
          by_cases none : layers = []
          · subst none
            refine ih (bare_none space tail before) nodupRest inner (fun d' _ _ => ?_) (by omega)
            obtain ⟨b, bs, same⟩ := List.exists_cons_of_ne_nil (filled before)
            rw [same]
            intro e member
            cases member
          · obtain ⟨e, rfl⟩ := single_layer parts none fun e member e' member' => by
              obtain ⟨x, inside⟩ := (parts.keys e member).some
              refine entry_unique parts member member' inside ?_
              rw [fullHead e' member', ← fullHead e member]
              exact inside
            have below := parts.subs e List.mem_cons_self
            have shape := bare_mk below
            have layersBelow : e.2.getLayers = .ok e.2.layers := by
              rw [shape]
              rfl
            rw [List.foldlM_cons, layersBelow, ok_bind, foldl_set_layers (bare_keys below)]
            have moved : mk (d :: (before ++ tail)).tail e.2.layers = e.2 := shape.symm
            show Returns (removeSomeActiveDimensions depth (kept ++ tail)
              (mk (d :: (before ++ tail)).tail e.2.layers)) (Bare space tail kept)
            rw [moved]
            exact ih below nodupRest inner (fullRest e List.mem_cons_self) (by omega)

theorem reduceActiveDimensions_bare (some : tail ≠ []) (bare : Bare space tail before h)
    (ordered : (before ++ tail).Sublist space.all_dimensions_list) :
    Returns (reduceActiveDimensions space h) fun r =>
      ∃ kept, kept.Sublist before ∧ Bare space tail kept r := by
  have nodup := space.nodup.sublist ordered
  have filled : before ++ tail ≠ [] := List.append_ne_nil_of_right_ne_nil _ some
  have active : h.active_dimensions = before ++ tail := by rw [bare_mk bare, active_mk]
  unfold reduceActiveDimensions
  by_cases done : (!h.bool || h.active_dimensions.isEmpty) = true
  · rw [if_pos done]
    exact returns_pure ⟨before, List.Sublist.refl _, bare⟩
  · rw [if_neg done]
    refine returns_bind (getValuesSetsPerActiveDimension_spec (bare_layered bare) filled
      (enough_depth ordered)) ?_
    intro values ⟨unique, right, within⟩
    refine returns_bind (fullDimensions_spec ordered.subset unique right within) ?_
    intro reduced reducedAt
    have shallow : ∀ d ∈ reduced, d ∈ before := by
      intro d member
      obtain ⟨⟨k, at_⟩, _⟩ := (reducedAt d).mp member
      exact bare_keyAt bare at_
    have listed : ∀ d ∈ before ++ tail, (d ∈ getDimensionsSubsetByOrder space reduced ↔
        d ∈ reduced) := fun d member =>
      mem_subsetByOrder.trans (and_iff_right (ordered.subset member))
    let kept := before.filter fun d => decide (d ∉ getDimensionsSubsetByOrder space reduced)
    have sublist : kept.Sublist before := List.filter_sublist
    have remaining : (before ++ tail).filter (fun dim =>
        decide (dim ∉ getDimensionsSubsetByOrder space reduced)) = kept ++ tail := by
      rw [List.filter_append]
      refine congrArg (kept ++ ·) (List.filter_eq_self.mpr fun d member => ?_)
      rw [decide_eq_true_eq, listed d (List.mem_append_right _ member)]
      exact fun inside => (List.nodup_append.mp nodup).2.2 d (shallow d inside) d member rfl
    have sorted := (sublist.append (List.Sublist.refl tail)).trans ordered
    unfold setInactiveDimensions
    dsimp only
    rw [active, remaining, subsetByOrder_self sorted,
      if_neg (List.append_ne_nil_of_right_ne_nil _ some)]
    refine returns_mono (removeSomeActiveDimensions_bare some bare nodup sublist ?_
      (enough_depth ordered)) fun r bare => ⟨kept, sublist, bare⟩
    intro d member out
    have inside : d ∈ reduced := by
      by_contra partly
      refine out (List.mem_filter.mpr ⟨member, ?_⟩)
      rwa [decide_eq_true_eq, listed d (List.mem_append_left _ member)]
    exact ((reducedAt d).mp inside).2

theorem contains_bare {p : String → Item} (some : tail ≠ []) (bare : Bare space tail before h)
    (ordered : (before ++ tail).Sublist space.all_dimensions_list) (point : Point space p) :
    ¬ In space h p := by
  obtain ⟨answer, found, decides⟩ := contains_layered (bare_layered bare)
    (List.append_ne_nil_of_right_ne_nil _ some) ordered.subset point (enough_depth ordered)
  unfold In
  rw [found]
  intro same
  exact bare_holds some bare p (decides.mp (Except.ok.inj same))

/-- Subtraction from an empty set leaves no point, whatever it leaves. -/
theorem sub_from_nothing_points (some : active ≠ [])
    (ordered : active.Sublist space.all_dimensions_list) (right : Filled space other) :
    Returns (do
      let (self, other_copy) ← prepareCommonActiveDimensions space (mk active []) other
      reduceActiveDimensions space (← subAux (maxDepth space) self other_copy)) fun r =>
      ∀ p, Point space p → ¬ In space r p := by
  obtain ⟨a, as, rfl⟩ := List.exists_cons_of_ne_nil some
  refine returns_bind (prepareCommonActiveDimensions_hollow ordered right) ?_
  intro (self, other_copy) ⟨before, after, common, whole, sorted, hollow, sub, points⟩
  subst whole
  have more : a :: after ≠ [] := List.cons_ne_nil a after
  have known : before ⊆ space.all_dimensions_list := fun d inside =>
    sorted.subset (List.mem_append_left _ inside)
  refine returns_bind (subAux_bare more (hollow_bare known hollow) sub (enough_depth sorted)) ?_
  intro difference bare
  refine returns_mono (reduceActiveDimensions_bare more bare sorted) ?_
  intro r ⟨kept, sublist, bare⟩ p point
  exact contains_bare more bare ((sublist.append (List.Sublist.refl _)).trans sorted) point

/-- A difference of canonical sets has the right points, be it canonical or not. -/
theorem sub_membership (left : Canonical space h) (right : Canonical space other) :
    Returns (h.sub space other) fun r => ∀ p, Point space p →
      (In space r p ↔ In space h p ∧ ¬ In space other p) := by
  by_cases filled : h.bool = true ∨ other.isAll = true ∨ other.bool = false
  · refine returns_mono (sub_spec left right ?_) ?_
    · intro empty some p point
      rcases filled with true | all | none
      · rw [true] at empty
        cases empty
      · have whole := (canonical_isAll right).mp all
        exact ⟨p, point, whole ▸ trivial, fun _ _ => rfl⟩
      · rw [← canonical_bool right, none] at some
        cases some
    · intro r ⟨canonical, points⟩ p point
      rw [in_iff canonical point, in_iff left point, in_iff right point, points p point]
  · obtain ⟨empty, part, true⟩ := not_or.mp filled |>.imp_right not_or.mp
    rw [Bool.not_eq_false] at true
    rcases canonical_cases left with rfl | ⟨active, some, ordered, rfl⟩ | ⟨some, sub⟩
    · exact (empty rfl).elim
    · unfold CanonicalHyperCubeSet.sub
      dsimp only
      rw [if_neg part, if_neg (by simp [true])]
      refine returns_mono (sub_from_nothing_points some ordered
        (canonical_filled right true)) ?_
      intro r none p point
      rw [in_iff left point]
      exact iff_of_false (none p point) fun both => has_nothing some p both.1
    · exact (empty (sub_bool sub some)).elim

end CanonicalHyperCubeSet
end Nca.CoreDS
