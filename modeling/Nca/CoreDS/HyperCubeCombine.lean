import Nca.CoreDS.HyperCubeUnion

/-!
The recursive `and`, `or` and `sub` of two hypercube sets over common active dimensions: on
canonical operands they end without an error, in canonical form, with the combined points.
-/

namespace Nca.CoreDS
open Lib Python Space

variable {L : Type} [ExactSet L String]

namespace CanonicalHyperCubeSet

variable {space : Space L} {d : String} {ds : List String} {layers layers' : Layers L}
  {h h' : CanonicalHyperCubeSet L} {depth : Nat}

theorem level_bool (level : Level space (d :: ds) h) : h.bool = true ↔ h.layers ≠ [] := by
  obtain ⟨layers, rfl, _⟩ := level
  cases layers <;> simp [bool, CanonicalHyperCubeSet.layers]

theorem isLastDimension_iff : isLastDimension (d :: ds) = true ↔ ds = [] := by
  simp [isLastDimension]

theorem holds_nothing (none : h.layers = []) (p : String → Item) : ¬ Holds (d :: ds) h p := by
  rintro ⟨e, member, _⟩
  rw [none] at member
  cases member

theorem apart_before {below : CanonicalHyperCubeSet L → Prop} (parts : Parts space d below layers)
    {before after : Layers L} {e e' : LayerElem L × CanonicalHyperCubeSet L}
    (whole : layers = before ++ e :: after) (member : e' ∈ before) {x : Item}
    (inside : x ∈ e'.1) : x ∉ e.1 := by
  have apart := parts.apart
  rw [whole] at apart
  exact (List.pairwise_append.mp apart).2.2 e' member e List.mem_cons_self x inside

theorem sub_emptyInterval : Sub space [] (emptyInterval : CanonicalHyperCubeSet L) :=
  ⟨rfl, fun some => (some rfl).elim⟩

/-- Some key of the layers has the value. -/
def Within (x : Item) (layers : Layers L) : Prop := ∃ e ∈ layers, x ∈ e.1

theorem within_append {e : LayerElem L × CanonicalHyperCubeSet L} {x : Item} :
    Within x (layers ++ [e]) ↔ Within x layers ∨ x ∈ e.1 := by
  simp only [Within, List.mem_append, List.mem_singleton, or_and_right, exists_or, exists_eq_left]

theorem within_of_layersHold {x : Item} {p : String → Item} (holds : LayersHold ds layers x p) :
    Within x layers := by
  obtain ⟨e, member, inside, _⟩ := holds
  exact ⟨e, member, inside⟩

theorem key_common {k k' g : LayerElem L} (key : Key space d k)
    (shaped : LayerElem.Shaped (space.domain d).type g)
    (members : ∀ x, x ∈ g ↔ x ∈ k ∧ x ∈ k') (some : g.bool = true) : Key space d g :=
  ⟨shaped, (LayerElem.bool_iff shaped).mp some, fun x inside =>
    key.within x ((members x).mp inside).1⟩

/-- On canonical operands over `ds` the operation combines their points, in canonical form. -/
def Computes (space : Space L) (ds : List String)
    (op : CanonicalHyperCubeSet L → CanonicalHyperCubeSet L →
      Except Failure (CanonicalHyperCubeSet L)) (combine : Prop → Prop → Prop) : Prop :=
  ∀ h h', Level space ds h → Level space ds h' → Returns (op h h') fun r =>
    Level space ds r ∧ ∀ p, Holds ds r p ↔ combine (Holds ds h p) (Holds ds h' p)

/-- An operation that computes a level whenever it computes the level below, computes them all. -/
theorem computes_levels {op : Nat → CanonicalHyperCubeSet L → CanonicalHyperCubeSet L →
      Except Failure (CanonicalHyperCubeSet L)} {combine : Prop → Prop → Prop}
    (step : ∀ depth d ds, (d :: ds).Nodup → d :: ds ⊆ space.all_dimensions_list →
      (ds ≠ [] → Computes space ds (op depth) combine) →
      Computes space (d :: ds) (op (depth + 1)) combine)
    (nodup : ds.Nodup) (known : ds ⊆ space.all_dimensions_list) (some : ds ≠ [])
    (enough : ds.length ≤ depth) : Computes space ds (op depth) combine := by
  induction ds generalizing depth with
  | nil => exact (some rfl).elim
  | cons d ds ih =>
    cases depth with
    | zero => simp at enough
    | succ depth =>
      rw [List.length_cons] at enough
      refine step depth d ds nodup known fun below => ?_
      exact ih (List.nodup_cons.mp nodup).2
        (fun d' member => known (List.mem_cons_of_mem d member)) below (by omega)

theorem andAux_step (below : ds ≠ [] → Computes space ds (andAux depth) And) :
    Computes space (d :: ds) (andAux (depth + 1)) And := by
  rintro h h' ⟨left, rfl, parts, _⟩ ⟨right, rfl, parts', _⟩
  unfold andAux
  rw [assert_bind rfl]
  let wanted := fun x p => LayersHold ds left x p ∧ LayersHold ds right x p
  refine returns_bind (returns_foldlM (fun done res =>
    Covers space d ds (Sub space ds) res (fun x => Within x done ∧ Within x right) wanted) ?_ ?_) ?_
  · exact covers_congr covers_none (by simp [Within])
  · intro done e rest res whole covers
    have member : e ∈ left := by simp [whole]
    refine returns_mono (returns_foldlM (fun done' res =>
      Covers space d ds (Sub space ds) res (fun x => (Within x done ∧ Within x right) ∨ x ∈ e.1 ∧ Within x done')
        wanted) ?_ ?_) ?_
    · exact covers_congr covers (by simp [Within])
    · intro done' e' rest' res whole' covers
      have member' : e' ∈ right := by simp [whole']
      refine returns_bind (LayerElem.and_spec (parts.keys e member).shaped
        (parts'.keys e' member').shaped) ?_
      rintro g ⟨shaped, members⟩
      have fresh : ∀ x, x ∈ g →
          ¬ ((Within x done ∧ Within x right) ∨ x ∈ e.1 ∧ Within x done') := by
        intro x hit
        obtain ⟨hitLeft, hitRight⟩ := (members x).mp hit
        rintro (⟨⟨e₀, member₀, inside⟩, _⟩ | ⟨_, e₀, member₀, inside⟩)
        · exact apart_before parts whole member₀ inside hitLeft
        · exact apart_before parts' whole' member₀ inside hitRight
      have more : ∀ x, ((Within x done ∧ Within x right) ∨ x ∈ e.1 ∧ Within x (done' ++ [e'])) ↔
          ((Within x done ∧ Within x right) ∨ x ∈ e.1 ∧ Within x done') ∨ x ∈ g := by
        intro x
        rw [within_append, members]
        tauto
      have here : ∀ x, x ∈ g → ∀ p, wanted x p ↔ Holds ds e.2 p ∧ Holds ds e'.2 p := by
        intro x hit p
        obtain ⟨hitLeft, hitRight⟩ := (members x).mp hit
        exact and_congr (layersHold_entry parts member hitLeft)
          (layersHold_entry parts' member' hitRight)
      by_cases some : g.bool = true
      · have key := key_common (parts.keys e member) shaped members some
        simp only [some, Bool.not_true, Bool.false_eq_true, ↓reduceIte, isLastDimension_iff]
        by_cases final : ds = []
        · subst final
          rw [if_pos rfl]
          refine returns_pure (covers_add covers key sub_emptyInterval fresh ?_ more)
          intro x hit p
          rw [here x hit p]
          simp [Holds]
        · rw [if_neg final]
          refine returns_bind (below final e.2 e'.2 (parts.subs e member).1
            (parts'.subs e' member').1) ?_
          rintro sub ⟨level, holds⟩
          obtain ⟨d', ds', rfl⟩ := List.exists_cons_of_ne_nil final
          by_cases filled : sub.bool = true
          · rw [if_pos filled]
            refine returns_pure (covers_add covers key
              ⟨level, fun _ => (level_bool level).mp filled⟩ fresh ?_ more)
            intro x hit p
            rw [here x hit p]
            exact holds p
          · rw [if_neg filled]
            rw [level_bool level, not_not] at filled
            refine returns_pure (covers_skip covers ?_ more)
            intro x hit _ p want
            exact holds_nothing filled p ((holds p).mpr ((here x hit p).mp want))
      · rw [Bool.not_eq_true] at some
        simp only [some, Bool.not_false, ↓reduceIte]
        refine returns_pure (covers_congr covers fun x => ?_)
        rw [more x]
        simp [(LayerElem.bool_eq_false shaped).mp some x]
    · intro res covers
      refine covers_congr covers fun x => ?_
      rw [within_append]
      tauto
  · intro res covers
    refine returns_mono (applyLayerElementsUnion_spec covers.parts) ?_
    rintro r ⟨level, holds⟩
    refine ⟨level, fun p => ?_⟩
    rw [holds, holds_cons, holds_cons]
    refine covers_all covers ?_ (p d) p
    rintro x outside q ⟨holdsLeft, holdsRight⟩
    exact outside ⟨within_of_layersHold holdsLeft, within_of_layersHold holdsRight⟩

theorem andAux_spec (nodup : ds.Nodup) (known : ds ⊆ space.all_dimensions_list) (some : ds ≠ [])
    (enough : ds.length ≤ depth) : Computes space ds (andAux depth) And :=
  computes_levels (fun _ _ _ _ _ => andAux_step) nodup known some enough

/-- What a loop over the other operand leaves of the key of `e`. -/
structure Remaining (space : Space L) (d : String) (e : LayerElem L × CanonicalHyperCubeSet L)
    (done : Layers L) (rest : LayerElem L) : Prop where
  shaped : LayerElem.Shaped (space.domain d).type rest
  members : ∀ x, x ∈ rest ↔ x ∈ e.1 ∧ ¬ Within x done

theorem remaining_sub {e e' : LayerElem L × CanonicalHyperCubeSet L} {done : Layers L}
    {rest g : LayerElem L} (remaining : Remaining space d e done rest)
    (shaped : LayerElem.Shaped (space.domain d).type g)
    (members : ∀ x, x ∈ g ↔ x ∈ e.1 ∧ x ∈ e'.1) :
    Returns (rest.sub g) (Remaining space d e (done ++ [e'])) := by
  refine returns_mono (LayerElem.sub_spec remaining.shaped shaped) ?_
  rintro rest' ⟨shaped', members'⟩
  refine ⟨shaped', fun x => ?_⟩
  rw [members', remaining.members, members, within_append]
  tauto

theorem remaining_skip {e e' : LayerElem L × CanonicalHyperCubeSet L} {done : Layers L}
    {rest : LayerElem L} (remaining : Remaining space d e done rest)
    (apart : ∀ x, x ∈ e.1 → x ∉ e'.1) : Remaining space d e (done ++ [e']) rest := by
  refine ⟨remaining.shaped, fun x => ?_⟩
  rw [remaining.members, within_append]
  have := apart x
  tauto

theorem covers_remaining {below : CanonicalHyperCubeSet L → Prop} {done res : Layers L}
    {wanted : Item → (String → Item) → Prop}
    {e : LayerElem L × CanonicalHyperCubeSet L} {rest : LayerElem L}
    (covers : Covers space d ds below res (fun x => Within x done ∨ x ∈ e.1 ∧ Within x layers')
      wanted)
    (key : Key space d e.1) (fits : below e.2)
    (apart : ∀ x, x ∈ e.1 → ¬ Within x done) (remaining : Remaining space d e layers' rest)
    (right : ∀ x, x ∈ rest → ∀ p, Holds ds e.2 p ↔ wanted x p) :
    Covers space d ds below (if rest.bool then Dict.set res rest e.2 else res)
      (fun x => Within x (done ++ [e])) wanted := by
  by_cases some : rest.bool = true
  · rw [if_pos some]
    have restKey : Key space d rest :=
      ⟨remaining.shaped, (LayerElem.bool_iff remaining.shaped).mp some,
        fun x inside => key.within x ((remaining.members x).mp inside).1⟩
    refine covers_add covers restKey fits ?_ right ?_
    · rintro x inside (old | ⟨_, hit⟩)
      · exact apart x ((remaining.members x).mp inside).1 old
      · exact ((remaining.members x).mp inside).2 hit
    · intro x
      rw [within_append, remaining.members]
      tauto
  · rw [if_neg some]
    rw [Bool.not_eq_true, LayerElem.bool_eq_false remaining.shaped] at some
    refine covers_congr covers fun x => ?_
    have := some x
    rw [remaining.members] at this
    rw [within_append]
    tauto

/-- Subtraction over one level, for any kind of sub-cube that the level below keeps. -/
theorem subAux_layers {kept : CanonicalHyperCubeSet L → Prop} {left right : Layers L}
    (sound : EqSound ds kept) (parts : Parts space d kept left)
    (parts' : Parts space d (Sub space ds) right)
    (below : ds ≠ [] → ∀ s s', kept s → Sub space ds s' → Returns (subAux depth s s') fun r =>
      (r.bool = true → kept r) ∧ (r.bool = false → ∀ p, ¬ Holds ds r p) ∧
      ∀ p, Holds ds r p ↔ Holds ds s p ∧ ¬ Holds ds s' p) :
    Returns (subAux (depth + 1) (mk (d :: ds) left) (mk (d :: ds) right)) fun r => ∃ res,
      r = mk (d :: ds) res ∧ Parts space d kept res ∧
      (res.Pairwise fun e e' => eq e.2 e'.2 = false) ∧
      ∀ p, Holds (d :: ds) r p ↔
        LayersHold ds left (p d) p ∧ ¬ LayersHold ds right (p d) p := by
  unfold subAux
  rw [assert_bind rfl]
  let wanted := fun x p => LayersHold ds left x p ∧ ¬ LayersHold ds right x p
  refine returns_bind (returns_foldlM (fun done res =>
    Covers space d ds kept res (fun x => Within x done) wanted) ?_ ?_) ?_
  · exact covers_congr covers_none (by simp [Within])
  · intro done e rest res whole covers
    have member : e ∈ left := by simp [whole]
    have earlier : ∀ x, x ∈ e.1 → ¬ Within x done := by
      rintro x hit ⟨e₀, member₀, inside⟩
      exact apart_before parts whole member₀ inside hit
    refine returns_bind (returns_foldlM (fun done' acc =>
      Covers space d ds kept acc.1 (fun x => Within x done ∨ x ∈ e.1 ∧ Within x done') wanted ∧
        Remaining space d e done' acc.2) ?_ ?_) ?_
    · exact ⟨covers_congr covers (by simp [Within]),
        (parts.keys e member).shaped, by simp [Within]⟩
    · rintro done' e' rest' acc whole' ⟨covers, remaining⟩
      have member' : e' ∈ right := by simp [whole']
      unfold subInner
      refine returns_bind (LayerElem.and_spec (parts.keys e member).shaped
        (parts'.keys e' member').shaped) ?_
      rintro g ⟨shaped, members⟩
      have fresh : ∀ x, x ∈ g → ¬ (Within x done ∨ x ∈ e.1 ∧ Within x done') := by
        intro x hit
        obtain ⟨hitLeft, hitRight⟩ := (members x).mp hit
        rintro (old | ⟨_, e₀, member₀, inside⟩)
        · exact earlier x hitLeft old
        · exact apart_before parts' whole' member₀ inside hitRight
      have more : ∀ x, (Within x done ∨ x ∈ e.1 ∧ Within x (done' ++ [e'])) ↔
          (Within x done ∨ x ∈ e.1 ∧ Within x done') ∨ x ∈ g := by
        intro x
        rw [within_append, members]
        tauto
      have here : ∀ x, x ∈ g → ∀ p, wanted x p ↔ Holds ds e.2 p ∧ ¬ Holds ds e'.2 p := by
        intro x hit p
        obtain ⟨hitLeft, hitRight⟩ := (members x).mp hit
        exact and_congr (layersHold_entry parts member hitLeft)
          (not_congr (layersHold_entry parts' member' hitRight))
      by_cases some : g.bool = true
      · have key := key_common (parts.keys e member) shaped members some
        simp only [some, Bool.not_true, Bool.false_eq_true, ↓reduceIte, isLastDimension_iff]
        refine returns_bind (remaining_sub remaining shaped members) ?_
        intro rest remaining
        by_cases final : ds = []
        · subst final
          rw [if_pos rfl]
          refine returns_pure ⟨covers_skip covers ?_ more, remaining⟩
          intro x hit _ p want
          exact ((here x hit p).mp want).2 trivial
        · rw [if_neg final]
          refine returns_bind (below final e.2 e'.2 (parts.subs e member)
            (parts'.subs e' member')) ?_
          rintro sub ⟨keeps, empties, holds⟩
          by_cases filled : sub.bool = true
          · rw [if_pos filled]
            refine returns_pure ⟨covers_add covers key (keeps filled) fresh ?_ more, remaining⟩
            intro x hit p
            rw [here x hit p]
            exact holds p
          · rw [if_neg filled]
            rw [Bool.not_eq_true] at filled
            refine returns_pure ⟨covers_skip covers ?_ more, remaining⟩
            intro x hit _ p want
            exact empties filled p ((holds p).mpr ((here x hit p).mp want))
      · rw [Bool.not_eq_true] at some
        have none := (LayerElem.bool_eq_false shaped).mp some
        simp only [some, Bool.not_false, ↓reduceIte]
        refine returns_pure ⟨covers_congr covers fun x => ?_, remaining_skip remaining ?_⟩
        · rw [more x]
          simp [none x]
        · intro x left right
          exact none x ((members x).mpr ⟨left, right⟩)
    · rintro ⟨res, rest⟩ ⟨covers, remaining⟩
      have added := covers_remaining covers (parts.keys e member) (parts.subs e member) earlier
        remaining ?_
      · dsimp only at added ⊢
        split at added
        · rw [if_pos ‹_›]
          exact returns_pure added
        · rw [if_neg ‹_›]
          exact returns_pure added
      · intro x inside p
        obtain ⟨hit, outside⟩ := (remaining.members x).mp inside
        have own : LayersHold ds left x p ↔ Holds ds e.2 p := layersHold_entry parts member hit
        have other : ¬ LayersHold ds right x p := fun holds => outside (within_of_layersHold holds)
        rw [← own]
        exact (and_iff_left other).symm
  · intro res covers
    refine returns_mono (applyLayerElementsUnion_parts sound covers.parts) ?_
    rintro r ⟨res', rfl, parts, distinct, holds⟩
    refine ⟨res', rfl, parts, distinct, fun p => ?_⟩
    rw [holds]
    refine covers_all covers ?_ (p d) p
    rintro x outside q ⟨holdsLeft, _⟩
    exact outside (within_of_layersHold holdsLeft)

theorem subAux_step (below : ds ≠ [] → Computes space ds (subAux depth) fun a b => a ∧ ¬ b) :
    Computes space (d :: ds) (subAux (depth + 1)) fun a b => a ∧ ¬ b := by
  rintro h h' ⟨left, rfl, parts, _⟩ ⟨right, rfl, parts', _⟩
  refine returns_mono (subAux_layers eqSound_sub parts parts' fun some s s' sub sub' => ?_) ?_
  · refine returns_mono (below some s s' sub.1 sub'.1) ?_
    rintro r ⟨level, holds⟩
    obtain ⟨d', ds', rfl⟩ := List.exists_cons_of_ne_nil some
    refine ⟨fun filled => ⟨level, fun _ => (level_bool level).mp filled⟩, fun empty => ?_, holds⟩
    rw [← Bool.not_eq_true, level_bool level, not_not] at empty
    exact holds_nothing empty
  · rintro r ⟨res, rfl, parts, distinct, holds⟩
    exact ⟨⟨res, rfl, parts, distinct⟩, holds⟩

theorem subAux_spec (nodup : ds.Nodup) (known : ds ⊆ space.all_dimensions_list) (some : ds ≠ [])
    (enough : ds.length ≤ depth) : Computes space ds (subAux depth) fun a b => a ∧ ¬ b :=
  computes_levels (fun _ _ _ _ _ => subAux_step) nodup known some enough

/-- `remaining_other_layers`: of every key of the other operand what is not covered yet. -/
structure RemainingOther (space : Space L) (d : String) (right : Layers L)
    (covered : Item → Prop) (remaining : List (LayerElem L × LayerElem L)) : Prop where
  keys : Dict.keys remaining = Dict.keys right
  found : ∀ e ∈ right, ∃ rest, Dict.get remaining e.1 = some rest ∧
    LayerElem.Shaped (space.domain d).type rest ∧ ∀ x, x ∈ rest ↔ x ∈ e.1 ∧ ¬ covered x

theorem remainingOther_start {right : Layers L} (parts : Parts space d (Sub space ds) right) :
    RemainingOther space d right (fun _ => False)
      (right.foldl (fun remaining e => Dict.set remaining e.1 e.1) []) := by
  have unique := keys_nodup parts
  have shape := Dict.foldl_set_fresh Prod.fst Prod.fst right unique [] (by simp [Dict.keys])
  rw [shape, List.nil_append]
  have keys : Dict.keys (right.map fun e => (e.1, e.1)) = Dict.keys right := by
    simp [Dict.keys, Function.comp_def]
  refine ⟨keys, fun e member => ⟨e.1, ?_, (parts.keys e member).shaped, by simp⟩⟩
  exact Dict.get_of_mem (keys ▸ unique) (List.mem_map_of_mem member)

theorem remainingOther_congr {right : Layers L} {covered covered' : Item → Prop}
    {remaining : List (LayerElem L × LayerElem L)}
    (inv : RemainingOther space d right covered remaining)
    (same : ∀ x, Within x right → (covered' x ↔ covered x)) :
    RemainingOther space d right covered' remaining := by
  refine ⟨inv.keys, fun e member => ?_⟩
  obtain ⟨rest, found, shaped, members⟩ := inv.found e member
  refine ⟨rest, found, shaped, fun x => ?_⟩
  rw [members]
  constructor
  · rintro ⟨hit, out⟩
    exact ⟨hit, fun new => out ((same x ⟨e, member, hit⟩).mp new)⟩
  · rintro ⟨hit, out⟩
    exact ⟨hit, fun old => out ((same x ⟨e, member, hit⟩).mpr old)⟩

theorem remainingOther_sub {right : Layers L} {covered : Item → Prop}
    {remaining : List (LayerElem L × LayerElem L)} {rest g : LayerElem L}
    (parts : Parts space d (Sub space ds) right)
    (inv : RemainingOther space d right covered remaining)
    {e' : LayerElem L × CanonicalHyperCubeSet L} (member' : e' ∈ right)
    (shaped : LayerElem.Shaped (space.domain d).type rest) (within : ∀ x, x ∈ g → x ∈ e'.1)
    (members : ∀ x, x ∈ rest ↔ (x ∈ e'.1 ∧ ¬ covered x) ∧ x ∉ g) :
    RemainingOther space d right (fun x => covered x ∨ x ∈ g)
      (Dict.set remaining e'.1 rest) := by
  have known : e'.1 ∈ Dict.keys remaining := by
    rw [inv.keys]
    exact List.mem_map_of_mem member'
  refine ⟨by rw [Dict.keys_set, if_pos known, inv.keys], fun e member => ?_⟩
  rw [Dict.get_set]
  by_cases same : e'.1 = e.1
  · refine ⟨rest, if_pos same, shaped, fun x => ?_⟩
    rw [members, same]
    tauto
  · obtain ⟨old, found, shapedOld, membersOld⟩ := inv.found e member
    refine ⟨old, by rw [if_neg same, found], shapedOld, fun x => ?_⟩
    rw [membersOld]
    have apart : x ∈ e.1 → x ∉ g := fun hit common =>
      same (congrArg Prod.fst (entry_unique parts member' member (within x common) hit))
    tauto

/-- A canonical set with all points of a sub-cube is not empty. -/
theorem sub_of_subset (nodup : ds.Nodup) (known : ds ⊆ space.all_dimensions_list)
    (level : Level space ds h) (sub : Sub space ds h')
    (subset : ∀ p, Holds ds h' p → Holds ds h p) : Sub space ds h := by
  refine ⟨level, fun some none => ?_⟩
  obtain ⟨d, ds, rfl⟩ := List.exists_cons_of_ne_nil some
  obtain ⟨q, point⟩ := point_exists space
  obtain ⟨p, _, holds, _⟩ := sub_point sub nodup known point
  exact holds_nothing none p (subset p holds)

/-- The loop of `or_aux` over the other operand, for one layer of `self`. -/
theorem orAux_inner {left right res done rest : Layers L}
    {remaining : List (LayerElem L × LayerElem L)} {e : LayerElem L × CanonicalHyperCubeSet L}
    {last : Bool} (nodup : (d :: ds).Nodup) (known : d :: ds ⊆ space.all_dimensions_list)
    (below : ds ≠ [] → Computes space ds (orAux depth) Or)
    (lastIff : last = true ↔ ds = [])
    (parts : Parts space d (Sub space ds) left) (parts' : Parts space d (Sub space ds) right)
    (whole : left = done ++ e :: rest)
    (covers : Covers space d ds (Sub space ds) res (fun x => Within x done)
      fun x p => LayersHold ds left x p ∨ LayersHold ds right x p)
    (other : RemainingOther space d right (fun x => Within x done) remaining) :
    Returns (right.foldlM (fun locals other_entry => orInner e.1 other_entry.1
        (if last then pure emptyInterval else orAux depth e.2 other_entry.2) locals)
        ⟨res, remaining, e.1⟩)
      fun locals => Covers space d ds (Sub space ds) locals.res_layers
          (fun x => Within x done ∨ x ∈ e.1 ∧ Within x right)
          (fun x p => LayersHold ds left x p ∨ LayersHold ds right x p) ∧
        RemainingOther space d right (fun x => Within x done ∨ x ∈ e.1 ∧ Within x right)
          locals.remaining_other_layers ∧
        Remaining space d e right locals.remaining_self_layer := by
  have member : e ∈ left := by simp [whole]
  have earlier : ∀ x, x ∈ e.1 → ¬ Within x done := by
    rintro x hit ⟨e₀, member₀, inside⟩
    exact apart_before parts whole member₀ inside hit
  refine returns_foldlM (fun done' (locals : OrLocals L) =>
    Covers space d ds (Sub space ds) locals.res_layers (fun x => Within x done ∨ x ∈ e.1 ∧ Within x done')
      (fun x p => LayersHold ds left x p ∨ LayersHold ds right x p) ∧
    RemainingOther space d right (fun x => Within x done ∨ x ∈ e.1 ∧ Within x done')
      locals.remaining_other_layers ∧
    Remaining space d e done' locals.remaining_self_layer) ?_ ?_
  · refine ⟨covers_congr covers (by simp [Within]), ?_, (parts.keys e member).shaped,
      by simp [Within]⟩
    exact remainingOther_congr other (by simp [Within])
  · rintro done' e' rest' locals whole' ⟨covers, other, own⟩
    have member' : e' ∈ right := by simp [whole']
    unfold orInner
    refine returns_bind (LayerElem.and_spec (parts.keys e member).shaped
      (parts'.keys e' member').shaped) ?_
    rintro g ⟨shaped, members⟩
    have more : ∀ x, (Within x done ∨ x ∈ e.1 ∧ Within x (done' ++ [e'])) ↔
        (Within x done ∨ x ∈ e.1 ∧ Within x done') ∨ x ∈ g := by
      intro x
      rw [within_append, members]
      tauto
    by_cases some : g.bool = true
    · have fresh : ∀ x, x ∈ g → ¬ (Within x done ∨ x ∈ e.1 ∧ Within x done') := by
        intro x hit
        obtain ⟨hitLeft, hitRight⟩ := (members x).mp hit
        rintro (old | ⟨_, e₀, member₀, inside⟩)
        · exact earlier x hitLeft old
        · exact apart_before parts' whole' member₀ inside hitRight
      have here : ∀ x, x ∈ g → ∀ p, (LayersHold ds left x p ∨ LayersHold ds right x p) ↔
          Holds ds e.2 p ∨ Holds ds e'.2 p := by
        intro x hit p
        obtain ⟨hitLeft, hitRight⟩ := (members x).mp hit
        exact or_congr (layersHold_entry parts member hitLeft)
          (layersHold_entry parts' member' hitRight)
      obtain ⟨old, found, shapedOld, membersOld⟩ := other.found e' member'
      simp only [some, Bool.not_true, Bool.false_eq_true, ↓reduceIte, found]
      refine returns_bind (LayerElem.sub_spec shapedOld shaped) ?_
      rintro cut ⟨shapedCut, membersCut⟩
      refine returns_bind (remaining_sub own shaped members) ?_
      intro kept own'
      have newSub : Returns (if last then pure emptyInterval else orAux depth e.2 e'.2)
          fun sub => Sub space ds sub ∧
            ∀ p, Holds ds sub p ↔ Holds ds e.2 p ∨ Holds ds e'.2 p := by
        by_cases final : ds = []
        · rw [if_pos (lastIff.mpr final)]
          subst final
          exact returns_pure ⟨sub_emptyInterval, fun p => by simp [Holds]⟩
        · rw [if_neg fun h => final (lastIff.mp h)]
          refine returns_mono (below final e.2 e'.2 (parts.subs e member).1
            (parts'.subs e' member').1) ?_
          rintro sub ⟨level, holds⟩
          refine ⟨sub_of_subset (List.nodup_cons.mp nodup).2
            (fun d' member => known (List.mem_cons_of_mem d member)) level (parts.subs e member)
            fun p left => (holds p).mpr (Or.inl left), holds⟩
      refine returns_bind newSub ?_
      rintro sub ⟨filled, holds⟩
      refine returns_pure ⟨?_, ?_, own'⟩
      · refine covers_add covers (key_common (parts.keys e member) shaped members some) filled
          fresh ?_ more
        intro x hit p
        rw [here x hit p]
        exact holds p
      · refine remainingOther_congr (remainingOther_sub parts' other member' shapedCut
          (fun x hit => ((members x).mp hit).2) ?_) fun x _ => more x
        intro x
        rw [membersCut, membersOld]
    · rw [Bool.not_eq_true] at some
      have none := (LayerElem.bool_eq_false shaped).mp some
      have same : ∀ x, (Within x done ∨ x ∈ e.1 ∧ Within x (done' ++ [e'])) ↔
          (Within x done ∨ x ∈ e.1 ∧ Within x done') := by
        intro x
        rw [more x]
        simp [none x]
      simp only [some, Bool.not_false, ↓reduceIte]
      refine returns_pure ⟨covers_congr covers same,
        remainingOther_congr other fun x _ => same x, remaining_skip own ?_⟩
      intro x left right
      exact none x ((members x).mpr ⟨left, right⟩)

/-- The loop of `or_aux` over what remains of the other operand. -/
theorem orAux_rest {left right res : Layers L} {remaining : List (LayerElem L × LayerElem L)}
    (parts' : Parts space d (Sub space ds) right)
    (covers : Covers space d ds (Sub space ds) res (fun x => Within x left)
      fun x p => LayersHold ds left x p ∨ LayersHold ds right x p)
    (other : RemainingOther space d right (fun x => Within x left) remaining) :
    Returns (remaining.foldlM (orRest right) res)
      fun res => Covers space d ds (Sub space ds) res (fun x => Within x left ∨ Within x right)
        fun x p => LayersHold ds left x p ∨ LayersHold ds right x p := by
  have unique : (Dict.keys remaining).Nodup := other.keys ▸ keys_nodup parts'
  have entryOf : ∀ entry ∈ remaining, ∃ e ∈ right, e.1 = entry.1 ∧
      LayerElem.Shaped (space.domain d).type entry.2 ∧
      ∀ x, x ∈ entry.2 ↔ x ∈ e.1 ∧ ¬ Within x left := by
    intro entry member
    have known : entry.1 ∈ Dict.keys right := other.keys ▸ List.mem_map_of_mem member
    obtain ⟨e, member', same⟩ := List.mem_map.mp known
    obtain ⟨rest, found, shaped, members⟩ := other.found e member'
    rw [same, Dict.get_of_mem unique member] at found
    obtain rfl := Option.some.inj found
    exact ⟨e, member', same, shaped, members⟩
  refine returns_mono (returns_foldlM (fun done res =>
    Covers space d ds (Sub space ds) res
      (fun x => Within x left ∨ ∃ entry : LayerElem L × LayerElem L, entry ∈ done ∧ x ∈ entry.2)
      fun x p => LayersHold ds left x p ∨ LayersHold ds right x p) ?_ ?_) ?_
  · exact covers_congr covers (by simp)
  · intro done entry rest res whole covers
    obtain ⟨e, member, same, shaped, members⟩ := entryOf entry (by simp [whole])
    have more : ∀ x, (Within x left ∨ ∃ entry' ∈ done ++ [entry], x ∈ entry'.2) ↔
        (Within x left ∨ ∃ entry' ∈ done, x ∈ entry'.2) ∨ x ∈ entry.2 := by
      intro x
      simp only [List.mem_append, List.mem_singleton, or_and_right, exists_or, exists_eq_left,
        or_assoc]
    unfold orRest
    have found : Dict.get right entry.1 = some e.2 :=
      same ▸ Dict.get_of_mem (keys_nodup parts') member
    by_cases some : entry.2.bool = true
    · rw [if_pos some]
      simp only [found]
      refine returns_pure (covers_add covers ?_ (parts'.subs e member) ?_ ?_ more)
      · exact ⟨shaped, (LayerElem.bool_iff shaped).mp some, fun x inside =>
          (parts'.keys e member).within x ((members x).mp inside).1⟩
      · intro x inside
        obtain ⟨hit, out⟩ := (members x).mp inside
        rintro (old | ⟨entry', member', inside'⟩)
        · exact out old
        · obtain ⟨e', memberE, same', _, members'⟩ := entryOf entry' (by simp [whole, member'])
          obtain rfl := entry_unique parts' member memberE hit ((members' x).mp inside').1
          -- two entries of the dictionary would have one key
          rw [whole, Dict.keys, List.map_append, List.map_cons] at unique
          have apart := (List.nodup_append.mp unique).2.2
          exact apart _ (List.mem_map_of_mem member') _ List.mem_cons_self (same'.symm.trans same)
      · intro x inside p
        obtain ⟨hit, out⟩ := (members x).mp inside
        rw [layersHold_entry parts' member hit]
        exact (or_iff_right fun holds => out (within_of_layersHold holds)).symm
    · rw [if_neg some]
      rw [Bool.not_eq_true, LayerElem.bool_eq_false shaped] at some
      refine returns_pure (covers_congr covers fun x => ?_)
      rw [more x]
      simp [some x]
  · intro res covers
    refine covers_congr covers fun x => ?_
    refine ⟨fun inside => ?_, fun inside => ?_⟩
    · rcases inside with old | ⟨e, member, hit⟩
      · exact Or.inl old
      · by_cases old : Within x left
        · exact Or.inl old
        · obtain ⟨rest, found, shaped, members⟩ := other.found e member
          exact Or.inr ⟨(e.1, rest), Dict.get_mem found, (members x).mpr ⟨hit, old⟩⟩
    · rcases inside with old | ⟨entry, member, hit⟩
      · exact Or.inl old
      · obtain ⟨e, member', _, _, members⟩ := entryOf entry member
        exact Or.inr ⟨e, member', ((members x).mp hit).1⟩

theorem orAux_step (nodup : (d :: ds).Nodup) (known : d :: ds ⊆ space.all_dimensions_list)
    (below : ds ≠ [] → Computes space ds (orAux depth) Or) :
    Computes space (d :: ds) (orAux (depth + 1)) Or := by
  rintro h h' ⟨left, rfl, parts, _⟩ ⟨right, rfl, parts', _⟩
  unfold orAux
  rw [assert_bind rfl]
  dsimp only
  refine returns_bind (returns_foldlM (fun done acc =>
    Covers space d ds (Sub space ds) acc.1 (fun x => Within x done)
      (fun x p => LayersHold ds left x p ∨ LayersHold ds right x p) ∧
    RemainingOther space d right (fun x => Within x done) acc.2) ?_ ?_) ?_
  · refine ⟨covers_congr covers_none (by simp [Within]), ?_⟩
    exact remainingOther_congr (remainingOther_start parts') (by simp [Within])
  · rintro done e rest ⟨res, remaining⟩ whole ⟨covers, other⟩
    have member : e ∈ left := by simp [whole]
    refine returns_bind (orAux_inner nodup known below isLastDimension_iff parts parts' whole
      covers other) ?_
    rintro locals ⟨covers, other, own⟩
    have added := covers_remaining covers (parts.keys e member) (parts.subs e member) ?_ own ?_
    · have region : ∀ x, Within x right → (Within x (done ++ [e]) ↔
          (Within x done ∨ x ∈ e.1 ∧ Within x right)) := by
        intro x inside
        rw [within_append]
        tauto
      have other := remainingOther_congr other region
      split
      · rw [if_pos ‹_›] at added
        exact returns_pure ⟨added, other⟩
      · rw [if_neg ‹_›] at added
        exact returns_pure ⟨added, other⟩
    · rintro x hit ⟨e₀, member₀, inside⟩
      exact apart_before parts whole member₀ inside hit
    · intro x inside p
      obtain ⟨hit, out⟩ := (own.members x).mp inside
      rw [layersHold_entry parts member hit]
      exact (or_iff_left fun holds => out (within_of_layersHold holds)).symm
  · rintro ⟨res, remaining⟩ ⟨covers, other⟩
    refine returns_bind (orAux_rest parts' covers other) ?_
    intro res covers
    refine returns_mono (applyLayerElementsUnion_spec covers.parts) ?_
    rintro r ⟨level, holds⟩
    refine ⟨level, fun p => ?_⟩
    rw [holds, holds_cons, holds_cons]
    refine covers_all covers ?_ (p d) p
    rintro x outside q (holdsLeft | holdsRight)
    · exact outside (Or.inl (within_of_layersHold holdsLeft))
    · exact outside (Or.inr (within_of_layersHold holdsRight))

theorem orAux_spec (nodup : ds.Nodup) (known : ds ⊆ space.all_dimensions_list) (some : ds ≠ [])
    (enough : ds.length ≤ depth) : Computes space ds (orAux depth) Or :=
  computes_levels (fun _ _ _ => orAux_step) nodup known some enough

end CanonicalHyperCubeSet
end Nca.CoreDS
