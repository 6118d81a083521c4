import Nca.CoreDS.HyperCubeAlign

/-!
Dropping active dimensions. After every operation the dimensions whose keys are all the whole
domain become inactive; what is left is canonical, with no needless active dimension.
-/

namespace Nca.CoreDS
open Lib Python Space

variable {L : Type} [ExactSet L String]

namespace CanonicalHyperCubeSet

variable {space : Space L} {d : String} {ds active new : List String} {layers : Layers L}
  {h : CanonicalHyperCubeSet L} {depth : Nat}

/-- The canonical form of a hypercube set: its active dimensions are in order, every level is
canonical, and unless the set is empty each active dimension makes a difference. -/
structure Canonical (space : Space L) (h : CanonicalHyperCubeSet L) : Prop where
  ordered : h.active_dimensions.Sublist space.all_dimensions_list
  all : h.active_dimensions = [] → h = mk [] []
  level : h.active_dimensions ≠ [] → Level space h.active_dimensions h
  minimal : h.layers ≠ [] → ∀ d ∈ h.active_dimensions, ¬ Needless space d h.active_dimensions h

theorem single_layer {below : CanonicalHyperCubeSet L → Prop} (parts : Parts space d below layers)
    (some : layers ≠ []) (same : ∀ e ∈ layers, ∀ e' ∈ layers, e = e') : ∃ e, layers = [e] := by
  cases layers with
  | nil => exact (some rfl).elim
  | cons e rest =>
    cases rest with
    | nil => exact ⟨e, rfl⟩
    | cons e' rest =>
      have equal := same e List.mem_cons_self e' (by simp)
      have apart := (List.pairwise_cons.mp parts.apart).1 e' List.mem_cons_self
      obtain ⟨x, inside⟩ := (parts.keys e List.mem_cons_self).some
      exact (apart x inside (equal ▸ inside)).elim

theorem foldl_set_layers (unique : (Dict.keys layers).Nodup) :
    layers.foldl (fun new_layers e => Dict.set new_layers e.1 e.2) [] = layers := by
  have shape := Dict.foldl_set_fresh Prod.fst Prod.snd layers unique [] (by simp [Dict.keys])
  simpa using shape

theorem removeSomeActiveDimensions_spec (sub : Sub space active h) (nodup : active.Nodup)
    (known : active ⊆ space.all_dimensions_list) (some : new ≠ []) (sublist : new.Sublist active)
    (full : ∀ d ∈ active, d ∉ new → Full space d active h) (enough : active.length ≤ depth) :
    Returns (removeSomeActiveDimensions depth new h) fun r => Sub space new r ∧
      ∀ p, Point space p → (Holds new r p ↔ Holds active h p) := by
  induction active generalizing depth new h with
  | nil => exact (some (List.sublist_nil.mp sublist)).elim
  | cons a rest ih =>
    cases depth with
    | zero => simp at enough
    | succ depth =>
      obtain ⟨n, news, rfl⟩ := List.exists_cons_of_ne_nil some
      obtain ⟨fresh, nodupRest⟩ := List.nodup_cons.mp nodup
      have knownRest : rest ⊆ space.all_dimensions_list := fun d inside =>
        known (List.mem_cons_of_mem a inside)
      obtain ⟨⟨layers, rfl, parts, apart⟩, filled⟩ := sub
      have nonempty : layers ≠ [] := filled (List.cons_ne_nil a rest)
      rw [List.length_cons] at enough
      unfold removeSomeActiveDimensions
      rw [assert_bind sublist.subset, assert_bind some]
      by_cases done : a :: rest = n :: news
      · rw [if_pos done, ← done]
        exact returns_pure ⟨⟨⟨layers, rfl, parts, apart⟩, filled⟩, fun _ _ => Iff.rfl⟩
      · rw [if_neg done, item_zero, item_zero, ok_bind, ok_bind]
        by_cases same : a = n
        · subst same
          have inner : news.Sublist rest := List.cons_sublist_cons.mp sublist
          have fullRest : ∀ d ∈ rest, d ∉ news → ∀ e ∈ layers, Full space d rest e.2 := by
            intro d member out e inside
            have other : d ∉ a :: news := fun h => by
              rcases List.mem_cons.mp h with rfl | later
              · exact fresh member
              · exact out later
            exact (full d (List.mem_cons_of_mem a member) other e inside).2
          rw [if_pos rfl]
          by_cases more : news = []
          · subst more
            rw [if_neg (by simp)]
            have everything : ∀ e ∈ layers, ∀ p, Point space p → Holds rest e.2 p := by
              intro e member p point
              exact full_all knownRest (parts.subs e member)
                (fun d inside => fullRest d inside (by simp) e member) point
            have related : Relayered space rest [] layers
                (layers.map fun e => (e.1, emptyInterval)) := by
              refine List.forall₂_map_right_iff.mpr (List.forall₂_same.mpr fun e member => ?_)
              exact ⟨rfl, sub_emptyInterval, fun p point =>
                iff_of_true trivial (everything e member p point)⟩
            exact returns_pure (relayered_sub related nodupRest knownRest List.nodup_nil (by simp)
              ⟨⟨layers, rfl, parts, apart⟩, filled⟩)
          · rw [List.tail_cons, if_pos more]
            have each : ∀ e ∈ layers, Returns (do
                pure (e.1, ← removeSomeActiveDimensions depth news e.2)) fun e' => e'.1 = e.1 ∧
                  Sub space news e'.2 ∧
                  ∀ p, Point space p → (Holds news e'.2 p ↔ Holds rest e.2 p) := by
              intro e member
              refine returns_bind (ih (parts.subs e member) nodupRest knownRest more inner
                (fun d inside out => fullRest d inside out e member) (by omega)) ?_
              rintro sub_elem ⟨below, holds⟩
              exact returns_pure ⟨rfl, below, holds⟩
            refine returns_bind (returns_mapM each) ?_
            intro layers' related
            exact returns_pure (relayered_sub related nodupRest knownRest
              (nodupRest.sublist inner) (fun d inside => knownRest (inner.subset inside))
              ⟨⟨layers, rfl, parts, apart⟩, filled⟩)
        · have inner := sublist_tail same sublist
          have fullHead : ∀ e ∈ layers, e.1 = space.domain a := fun e member =>
            (full a List.mem_cons_self (fun inside => fresh (inner.subset inside)) e member).1 rfl
          obtain ⟨e, rfl⟩ := single_layer parts nonempty fun e member e' member' => by
            obtain ⟨x, inside⟩ := (parts.keys e member).some
            refine entry_unique parts member member' inside ?_
            rw [fullHead e' member', ← fullHead e member]
            exact inside
          have below := parts.subs e List.mem_cons_self
          obtain ⟨r, rs, rfl⟩ := List.exists_cons_of_ne_nil
            (fun none => some (List.sublist_nil.mp (none ▸ inner)) : rest ≠ [])
          obtain ⟨shape, partsBelow, _⟩ := level_mk below.1
          have layersBelow : e.2.getLayers = .ok e.2.layers := by
            rw [shape]
            rfl
          rw [if_neg same, List.foldlM_cons, layersBelow, ok_bind, foldl_set_layers
            (keys_nodup partsBelow)]
          have moved : mk (a :: r :: rs).tail e.2.layers = e.2 := shape.symm
          refine returns_mono (moved.symm ▸ ih below nodupRest knownRest some inner
            (fun d member out => (full d (List.mem_cons_of_mem a member) out e
              List.mem_cons_self).2) (by omega)) ?_
          rintro r' ⟨sub', holds⟩
          refine ⟨sub', fun p point => (holds p point).trans ?_⟩
          rw [show e = (e.1, e.2) from rfl, single_holds, fullHead e List.mem_cons_self]
          exact (and_iff_right (point a (known List.mem_cons_self))).symm

section Values

/-- The key stands in a layer over this dimension. -/
def KeyAt (d : String) : List String → CanonicalHyperCubeSet L → LayerElem L → Prop
  | [], _, _ => False
  | d' :: ds, h, k => (d' = d ∧ ∃ e ∈ h.layers, e.1 = k) ∨ ∃ e ∈ h.layers, KeyAt d ds e.2 k

theorem full_iff_keyAt : Full space d ds h ↔ ∀ k, KeyAt d ds h k → k = space.domain d := by
  induction ds generalizing h with
  | nil => simp [Full, KeyAt]
  | cons d' ds ih =>
    unfold Full KeyAt
    constructor
    · rintro full k (⟨same, e, member, rfl⟩ | ⟨e, member, below⟩)
      · exact (full e member).1 same
      · exact ih.mp (full e member).2 k below
    · intro all e member
      refine ⟨fun same => all e.1 (Or.inl ⟨same, e, member, rfl⟩), ih.mpr fun k below => ?_⟩
      exact all k (Or.inr ⟨e, member, below⟩)

theorem keyAt_some (sub : Sub space ds h) (member : d ∈ ds) : ∃ k, KeyAt d ds h k := by
  induction ds generalizing h with
  | nil => cases member
  | cons d' ds ih =>
    obtain ⟨⟨layers, rfl, parts, _⟩, some⟩ := sub
    obtain ⟨e, inside⟩ := List.exists_mem_of_ne_nil _ (some (List.cons_ne_nil d' ds))
    rcases List.mem_cons.mp member with rfl | later
    · exact ⟨e.1, Or.inl ⟨rfl, e, inside, rfl⟩⟩
    · obtain ⟨k, below⟩ := ih (parts.subs e inside) later
      exact ⟨k, Or.inr ⟨e, inside, below⟩⟩

/-- The values that the dictionary holds for a dimension. -/
def ValueOf (res : List (String × Finset (LayerElem L))) (d : String) (k : LayerElem L) : Prop :=
  ∃ values, (d, values) ∈ res ∧ k ∈ values

theorem mergeValues_spec {res : List (String × Finset (LayerElem L))}
    (unique : (Dict.keys res).Nodup) (entry : String × Finset (LayerElem L)) :
    (Dict.keys (mergeValues res entry)).Nodup ∧
      (∀ d k, ValueOf (mergeValues res entry) d k ↔
        ValueOf res d k ∨ d = entry.1 ∧ k ∈ entry.2) ∧
      ∀ d ∈ Dict.keys (mergeValues res entry), d ∈ Dict.keys res ∨ d = entry.1 := by
  have lookup : ∀ {res : List (String × Finset (LayerElem L))}, (Dict.keys res).Nodup → ∀ d k,
      ValueOf res d k ↔ ∃ values, Dict.get res d = some values ∧ k ∈ values := by
    intro res unique d k
    constructor
    · rintro ⟨values, member, inside⟩
      exact ⟨values, Dict.get_of_mem unique member, inside⟩
    · rintro ⟨values, found, inside⟩
      exact ⟨values, Dict.get_mem found, inside⟩
  have keysSet : ∀ values, (Dict.keys (Dict.set res entry.1 values)).Nodup ∧
      ∀ d ∈ Dict.keys (Dict.set res entry.1 values), d ∈ Dict.keys res ∨ d = entry.1 := by
    intro values
    rw [Dict.keys_set]
    split
    · exact ⟨unique, fun d inside => Or.inl inside⟩
    · rename_i fresh
      refine ⟨List.nodup_append.mpr ⟨unique, by simp, ?_⟩, by simp⟩
      intro a inside b single same
      rw [List.mem_singleton.mp single] at same
      exact fresh (same ▸ inside)
  unfold mergeValues
  cases found : Dict.get res entry.1 with
  | none | some dim_values =>
    all_goals
      refine ⟨(keysSet _).1, fun d k => ?_, (keysSet _).2⟩
      rw [lookup (keysSet _).1, lookup unique]
      simp only [Dict.get_set]
      by_cases same : entry.1 = d
      · subst same
        simp [found]
      · have other : d ≠ entry.1 := fun h => same h.symm
        simp only [if_neg same, other, false_and, or_false]

theorem mergeAll_spec {res : List (String × Finset (LayerElem L))}
    (more : List (String × Finset (LayerElem L))) (unique : (Dict.keys res).Nodup) :
    (Dict.keys (more.foldl mergeValues res)).Nodup ∧
      (∀ d k, ValueOf (more.foldl mergeValues res) d k ↔ ValueOf res d k ∨ ValueOf more d k) ∧
      ∀ d ∈ Dict.keys (more.foldl mergeValues res), d ∈ Dict.keys res ∨ d ∈ Dict.keys more := by
  induction more generalizing res with
  | nil => exact ⟨unique, fun d k => by simp [ValueOf], fun d inside => Or.inl inside⟩
  | cons entry more ih =>
    obtain ⟨uniqueStep, values, within⟩ := mergeValues_spec unique entry
    obtain ⟨uniqueAll, valuesAll, withinAll⟩ := ih uniqueStep
    refine ⟨uniqueAll, fun d k => ?_, fun d inside => ?_⟩
    · rw [List.foldl_cons, valuesAll, values, or_assoc]
      refine or_congr_right ?_
      constructor
      · rintro (⟨rfl, inside⟩ | ⟨values, member, inside⟩)
        · exact ⟨entry.2, List.mem_cons_self, inside⟩
        · exact ⟨values, List.mem_cons_of_mem _ member, inside⟩
      · rintro ⟨values, member, inside⟩
        rcases List.mem_cons.mp member with rfl | later
        · exact Or.inl ⟨rfl, inside⟩
        · exact Or.inr ⟨values, later, inside⟩
    · rcases withinAll d inside with step | later
      · rcases within d step with old | rfl
        · exact Or.inl old
        · exact Or.inr List.mem_cons_self
      · exact Or.inr (List.mem_cons_of_mem _ later)

theorem getValuesSetsPerActiveDimension_spec (layered : Layered space ds h) (some : ds ≠ [])
    (enough : ds.length ≤ depth) :
    Returns (getValuesSetsPerActiveDimension depth h) fun res =>
      (Dict.keys res).Nodup ∧ (∀ d k, ValueOf res d k ↔ KeyAt d ds h k) ∧
        ∀ d ∈ Dict.keys res, d ∈ ds := by
  induction ds generalizing depth h with
  | nil => exact (some rfl).elim
  | cons d ds ih =>
    cases depth with
    | zero => simp at enough
    | succ depth =>
      obtain ⟨layers, rfl, parts⟩ := layered
      rw [List.length_cons] at enough
      unfold getValuesSetsPerActiveDimension
      rw [item_zero, ok_bind]
      have start : ∀ d' k, ValueOf [(d, (layers.map Prod.fst).toFinset)] d' k ↔
          d = d' ∧ ∃ e ∈ layers, e.1 = k := by
        intro d' k
        constructor
        · rintro ⟨values, member, inside⟩
          obtain ⟨rfl, rfl⟩ := Prod.mk.inj (List.mem_singleton.mp member)
          exact ⟨rfl, List.mem_map.mp (List.mem_toFinset.mp inside)⟩
        · rintro ⟨rfl, found⟩
          exact ⟨_, List.mem_singleton.mpr rfl, List.mem_toFinset.mpr (List.mem_map.mpr found)⟩
      have unique : (Dict.keys [(d, (layers.map Prod.fst).toFinset)]).Nodup := by simp [Dict.keys]
      by_cases last : ds = []
      · subst last
        rw [if_pos (by simp [isLastDimension])]
        refine returns_pure ⟨unique, fun d' k => ?_, by simp [Dict.keys]⟩
        rw [start]
        simp [KeyAt, CanonicalHyperCubeSet.layers]
      · rw [if_neg (by simpa [isLastDimension] using last)]
        refine returns_mono (returns_foldlM (fun done res => (Dict.keys res).Nodup ∧
          (∀ d' k, ValueOf res d' k ↔
            (d = d' ∧ ∃ e ∈ layers, e.1 = k) ∨ ∃ e ∈ done, KeyAt d' ds e.2 k) ∧
          ∀ d' ∈ Dict.keys res, d' ∈ d :: ds) ?_ ?_) ?_
        · refine ⟨unique, fun d' k => ?_, by simp [Dict.keys]⟩
          rw [start]
          simp
        · rintro done e rest res whole ⟨uniqueRes, values, within⟩
          refine returns_bind (ih (parts.subs e (by simp [whole])) last (by omega)) ?_
          rintro sub_res ⟨_, subValues, subWithin⟩
          obtain ⟨uniqueAll, valuesAll, withinAll⟩ := mergeAll_spec sub_res uniqueRes
          refine returns_pure ⟨uniqueAll, fun d' k => ?_, ?_⟩
          · rw [valuesAll, values, subValues, or_assoc]
            refine or_congr_right ?_
            simp only [List.mem_append, List.mem_singleton, or_and_right, exists_or,
              exists_eq_left]
          · intro d' inside
            rcases withinAll d' inside with old | below
            · exact within d' old
            · exact List.mem_cons_of_mem d (subWithin d' below)
        · rintro res ⟨uniqueRes, values, within⟩
          exact ⟨uniqueRes, values, within⟩

end Values

/-- The loop that looks for the dimensions to reduce finds those whose only key is the domain. -/
theorem fullDimensions_spec {values : List (String × Finset (LayerElem L))}
    (known : active ⊆ space.all_dimensions_list)
    (unique : (Dict.keys values).Nodup) (right : ∀ d k, ValueOf values d k ↔ KeyAt d active h k)
    (within : ∀ d ∈ Dict.keys values, d ∈ active) :
    Returns (values.foldlM (fun dimensions_to_reduce entry => do
        let dim_domain ← space.manager.getDimensionDomainByName entry.1
        pure (if {dim_domain} = entry.2 then dimensions_to_reduce ++ [entry.1]
          else dimensions_to_reduce)) []) fun reduced =>
      ∀ d, d ∈ reduced ↔ (∃ k, KeyAt d active h k) ∧ Full space d active h := by
  have wanted : ∀ entry ∈ values, ({space.domain entry.1} = entry.2 ↔
      (∃ k, KeyAt entry.1 active h k) ∧ Full space entry.1 active h) := by
    intro entry member
    have valuesAt : ∀ k, k ∈ entry.2 ↔ KeyAt entry.1 active h k := by
      intro k
      rw [← right]
      constructor
      · exact fun inside => ⟨entry.2, member, inside⟩
      · rintro ⟨values', member', inside⟩
        have same := (Dict.get_of_mem unique member').symm.trans (Dict.get_of_mem unique member)
        exact Option.some.inj same ▸ inside
    rw [full_iff_keyAt, eq_comm, Finset.eq_singleton_iff_unique_mem]
    simp only [valuesAt]
    constructor
    · exact fun all => ⟨⟨_, all.1⟩, all.2⟩
    · rintro ⟨⟨k, at_⟩, all⟩
      exact ⟨all k at_ ▸ at_, all⟩
  refine returns_mono (returns_foldlM (fun done reduced => ∀ d, d ∈ reduced ↔
    d ∈ Dict.keys done ∧ (∃ k, KeyAt d active h k) ∧ Full space d active h) ?_ ?_) ?_
  · simp [Dict.keys]
  · intro done entry rest reduced whole inv
    have member : entry ∈ values := by simp [whole]
    have active := within entry.1 (List.mem_map_of_mem member)
    rw [getDomain_eq (known active), ok_bind]
    refine returns_pure fun d => ?_
    have keys : d ∈ Dict.keys (done ++ [entry]) ↔ d ∈ Dict.keys done ∨ d = entry.1 := by
      simp [Dict.keys]
    rw [keys]
    split
    · rename_i full
      rw [List.mem_append, inv, List.mem_singleton]
      have := (wanted entry member).mp full
      constructor
      · rintro (old | rfl)
        · exact ⟨Or.inl old.1, old.2⟩
        · exact ⟨Or.inr rfl, this⟩
      · rintro ⟨old | rfl, full⟩
        · exact Or.inl ⟨old, full⟩
        · exact Or.inr rfl
    · rename_i partly
      rw [inv]
      constructor
      · exact fun old => ⟨Or.inl old.1, old.2⟩
      · rintro ⟨old | rfl, full⟩
        · exact ⟨old, full⟩
        · exact (partly ((wanted entry member).mpr full)).elim
  · intro reduced inv d
    rw [inv]
    refine and_iff_right_of_imp ?_
    rintro ⟨⟨k, at_⟩, _⟩
    obtain ⟨values', member', _⟩ := (right d k).mpr at_
    exact List.mem_map_of_mem member'

theorem canonical_all : Canonical space (mk [] [] : CanonicalHyperCubeSet L) :=
  ⟨List.nil_sublist _, fun _ => rfl, fun some => (some rfl).elim, fun some => (some rfl).elim⟩

theorem canonical_nothing (some : active ≠ []) (ordered : active.Sublist space.all_dimensions_list) :
    Canonical space (mk active [] : CanonicalHyperCubeSet L) := by
  obtain ⟨d, ds, rfl⟩ := List.exists_cons_of_ne_nil some
  refine ⟨ordered, fun none => (some none).elim, fun _ => ?_, fun some => (some rfl).elim⟩
  exact ⟨[], rfl, ⟨by simp, by simp, .nil⟩, .nil⟩

theorem enough_depth (ordered : active.Sublist space.all_dimensions_list) :
    active.length ≤ maxDepth space := by
  have := ordered.length_le
  unfold maxDepth
  omega

/-- The dimensions that are kept are those in which some key is not the whole domain. The domains
need not be those that the set was built with. -/
theorem reduceActiveDimensions_eq {origin : Space L} (sub : Sub origin active h) (some : active ≠ [])
    (ordered : active.Sublist space.all_dimensions_list) :
    ∃ new, new.Sublist space.all_dimensions_list ∧
      (∀ d, d ∈ new ↔ d ∈ active ∧ ¬ Full space d active h) ∧
      reduceActiveDimensions space h = if new = [] then pure (mk [] [])
        else removeSomeActiveDimensions (maxDepth space) new h := by
  have known := ordered.subset
  have same := sub_active sub some
  have filled : h.bool = true := by
    obtain ⟨d₀, ds₀, rfl⟩ := List.exists_cons_of_ne_nil some
    exact (level_bool sub.1).mpr (sub.2 some)
  obtain ⟨values, found, unique, right, within⟩ := getValuesSetsPerActiveDimension_spec
    (level_layered sub.1) some (enough_depth ordered)
  obtain ⟨reduced, found', reducedAt⟩ := fullDimensions_spec known unique right within
  have reducedIff : ∀ d, d ∈ reduced ↔ d ∈ active ∧ Full space d active h := by
    intro d
    rw [reducedAt]
    refine and_congr_left fun _ => ⟨?_, keyAt_some sub⟩
    rintro ⟨k, at_⟩
    obtain ⟨values', member, _⟩ := (right d k).mpr at_
    exact within d (List.mem_map_of_mem member)
  unfold reduceActiveDimensions
  rw [if_neg (by simp [filled, same, some]), found, ok_bind, found', ok_bind]
  refine ⟨_, subsetByOrder_sublist space _, fun d => ?_, rfl⟩
  rw [mem_subsetByOrder, List.mem_filter, decide_eq_true_eq, mem_subsetByOrder, reducedIff, same]
  constructor
  · rintro ⟨inside, member, out⟩
    exact ⟨member, fun full => out ⟨inside, member, full⟩⟩
  · rintro ⟨member, partly⟩
    exact ⟨known member, member, fun full => partly full.2.2⟩

/-- `reduce_active_dimensions` after an operation. -/
theorem reduceActiveDimensions_spec (level : Level space active h) (some : active ≠ [])
    (ordered : active.Sublist space.all_dimensions_list) :
    Returns (reduceActiveDimensions space h) fun r => Canonical space r ∧
      ∀ p, Point space p → (Has r p ↔ Holds active h p) := by
  have nodup := space.nodup.sublist ordered
  have known := ordered.subset
  by_cases none : h.layers = []
  · obtain ⟨d₀, ds₀, rfl⟩ := List.exists_cons_of_ne_nil some
    have shape := (level_mk level).1
    unfold reduceActiveDimensions
    rw [if_pos]
    · refine returns_pure ⟨?_, fun p _ => ?_⟩
      · rw [shape, none]
        exact canonical_nothing some ordered
      · rw [shape]
        exact Iff.rfl
    · have : h.bool = false := by
        rw [← Bool.not_eq_true, level_bool level]
        exact fun h => h none
      simp [this]
  · have sub : Sub space active h := ⟨level, fun _ => none⟩
    obtain ⟨new, orderedNew, memNew, reduced⟩ := reduceActiveDimensions_eq sub some ordered
    rw [reduced]
    by_cases everything : new = []
    · rw [if_pos everything]
      refine returns_pure ⟨canonical_all, fun p point => iff_of_true trivial ?_⟩
      refine full_all known sub (fun d member => ?_) point
      by_contra partly
      have := (memNew d).mpr ⟨member, partly⟩
      rw [everything] at this
      cases this
    · rw [if_neg everything]
      have sublist : new.Sublist active := sublist_of_subset space.nodup orderedNew ordered
        fun d member => ((memNew d).mp member).1
      refine returns_mono (removeSomeActiveDimensions_spec sub nodup known everything sublist
        (fun d member out => ?_) (enough_depth ordered)) ?_
      · by_contra partly
        exact out ((memNew d).mpr ⟨member, partly⟩)
      · rintro r ⟨subR, points⟩
        have activeR := sub_active subR everything
        have pointsR : ∀ p, Point space p → (Has r p ↔ Holds active h p) := by
          unfold Has
          rw [activeR]
          exact points
        refine ⟨⟨activeR ▸ orderedNew, fun none => (everything (activeR ▸ none)).elim,
          fun _ => activeR ▸ subR.1, fun _ d member => ?_⟩, pointsR⟩
        rw [activeR] at member ⊢
        obtain ⟨inside, partly⟩ := (memNew d).mp member
        intro needless
        refine partly (needless_full nodup known level fun p x point valid => ?_)
        rw [← points p point, ← points _ (point_update point valid)]
        exact needless p x point valid

end CanonicalHyperCubeSet
end Nca.CoreDS
