import Nca.CoreDS.HyperCubeForm

/-!
Building a level. A loop adds layers for one region of the first coordinate after another; what it
has covered so far holds the wanted points, and merging equal sub-cubes makes the level canonical.
-/

namespace Nca.CoreDS
open Lib Python Space

variable {L : Type} [ExactSet L String]

namespace CanonicalHyperCubeSet

variable {space : Space L} {d : String} {ds : List String} {layers : Layers L}
  {h h' : CanonicalHyperCubeSet L}

/-- The layers hold the points of `wanted`, as far as their first coordinate is `covered`. -/
structure Covers (space : Space L) (d : String) (ds : List String)
    (below : CanonicalHyperCubeSet L → Prop) (res : Layers L) (covered : Item → Prop)
    (wanted : Item → (String → Item) → Prop) : Prop where
  parts : Parts space d below res
  inside : ∀ e ∈ res, ∀ x, x ∈ e.1 → covered x
  holds : ∀ x, covered x → ∀ p, LayersHold ds res x p ↔ wanted x p

section Covers

variable {res : Layers L} {covered covered' : Item → Prop}
  {wanted : Item → (String → Item) → Prop} {k : LayerElem L}
  {below : CanonicalHyperCubeSet L → Prop}

theorem covers_none : Covers space d ds below ([] : Layers L) (fun _ => False) wanted :=
  ⟨⟨by simp, by simp, .nil⟩, by simp, fun _ none => none.elim⟩

theorem covers_congr (covers : Covers space d ds below res covered wanted)
    (same : ∀ x, covered' x ↔ covered x) : Covers space d ds below res covered' wanted := by
  obtain rfl : covered' = covered := funext fun x => propext (same x)
  exact covers

theorem covers_outside (covers : Covers space d ds below res covered wanted) {x : Item}
    (outside : ¬ covered x) (p : String → Item) : ¬ LayersHold ds res x p := by
  rintro ⟨e, member, inside, _⟩
  exact outside (covers.inside e member x inside)

theorem covers_skip (covers : Covers space d ds below res covered wanted)
    (nothing : ∀ x, x ∈ k → ¬ covered x → ∀ p, ¬ wanted x p)
    (more : ∀ x, covered' x ↔ covered x ∨ x ∈ k) : Covers space d ds below res covered' wanted := by
  refine ⟨covers.parts, fun e member x inside => (more x).mpr (Or.inl ?_), ?_⟩
  · exact covers.inside e member x inside
  · intro x new p
    by_cases old : covered x
    · exact covers.holds x old p
    · have inside := ((more x).mp new).resolve_left old
      exact iff_of_false (covers_outside covers old p) (nothing x inside old p)

theorem covers_add {sub : CanonicalHyperCubeSet L} (covers : Covers space d ds below res covered wanted)
    (key : Key space d k) (fits : below sub) (fresh : ∀ x, x ∈ k → ¬ covered x)
    (right : ∀ x, x ∈ k → ∀ p, Holds ds sub p ↔ wanted x p)
    (more : ∀ x, covered' x ↔ covered x ∨ x ∈ k) :
    Covers space d ds below (Dict.set res k sub) covered' wanted := by
  have apart : ∀ e ∈ res, ∀ x, x ∈ e.1 → x ∉ k := fun e member x inside hit =>
    fresh x hit (covers.inside e member x inside)
  have differ : ∀ e ∈ res, e.1 ≠ k := by
    intro e member same
    obtain ⟨x, inside⟩ := key.some
    exact apart e member x (same ▸ inside) inside
  rw [Dict.set_fresh sub differ]
  refine ⟨⟨?_, ?_, ?_⟩, ?_, ?_⟩
  · intro e member
    rcases List.mem_append.mp member with old | new
    · exact covers.parts.keys e old
    · rw [List.mem_singleton.mp new]
      exact key
  · intro e member
    rcases List.mem_append.mp member with old | new
    · exact covers.parts.subs e old
    · rw [List.mem_singleton.mp new]
      exact fits
  · refine List.pairwise_append.mpr ⟨covers.parts.apart, by simp, ?_⟩
    intro e member e' member'
    rw [List.mem_singleton.mp member']
    exact apart e member
  · intro e member x inside
    rcases List.mem_append.mp member with old | new
    · exact (more x).mpr (Or.inl (covers.inside e old x inside))
    · rw [List.mem_singleton.mp new] at inside
      exact (more x).mpr (Or.inr inside)
  · intro x new p
    have split : LayersHold ds (res ++ [(k, sub)]) x p ↔
        LayersHold ds res x p ∨ x ∈ k ∧ Holds ds sub p := by
      simp only [LayersHold, List.mem_append, List.mem_singleton, or_and_right, exists_or,
        exists_eq_left]
    rw [split]
    by_cases hit : x ∈ k
    · have outside := covers_outside covers (fresh x hit) p
      simp only [outside, hit, true_and, false_or]
      exact right x hit p
    · have old := ((more x).mp new).resolve_right hit
      simp only [hit, false_and, or_false]
      exact covers.holds x old p

theorem covers_all (covers : Covers space d ds below res covered wanted)
    (rest : ∀ x, ¬ covered x → ∀ p, ¬ wanted x p) (x : Item) (p : String → Item) :
    LayersHold ds res x p ↔ wanted x p := by
  by_cases inside : covered x
  · exact covers.holds x inside p
  · exact iff_of_false (covers_outside covers inside p) (rest x inside p)

end Covers

/-- The keys of an equivalence class of layers. -/
abbrev classKeys (c : CanonicalHyperCubeSet L × LayerElem L × List (LayerElem L)) :
    List (LayerElem L) := c.2.1 :: c.2.2

theorem classAppend_cases (sub : CanonicalHyperCubeSet L) (k : LayerElem L)
    (classes : List (CanonicalHyperCubeSet L × LayerElem L × List (LayerElem L))) :
    ((∀ c ∈ classes, eq c.1 sub = false) ∧
        classAppend sub k classes = classes ++ [(sub, k, [])]) ∨
      ∃ before key first others after, classes = before ++ (key, first, others) :: after ∧
        eq key sub = true ∧
        classAppend sub k classes = before ++ (key, first, others ++ [k]) :: after := by
  induction classes with
  | nil => exact Or.inl ⟨by simp, rfl⟩
  | cons c rest ih =>
    obtain ⟨key, first, others⟩ := c
    rw [classAppend]
    by_cases same : eq key sub = true
    · rw [if_pos same]
      exact Or.inr ⟨[], key, first, others, rest, rfl, same, rfl⟩
    · rw [if_neg same]
      rcases ih with ⟨none, shape⟩ | ⟨before, key', first', others', after, rfl, same', shape⟩
      · refine Or.inl ⟨?_, by rw [shape]; rfl⟩
        intro c member
        rcases List.mem_cons.mp member with rfl | later
        · exact Bool.not_eq_true _ ▸ same
        · exact none c later
      · exact Or.inr ⟨(key, first, others) :: before, key', first', others', after, rfl, same',
          by rw [shape]; rfl⟩

/-- The classes of the layers seen so far. -/
structure Classes (ds : List String) (below : CanonicalHyperCubeSet L → Prop) (seen : Layers L)
    (classes : List (CanonicalHyperCubeSet L × LayerElem L × List (LayerElem L))) : Prop where
  subs : ∀ c ∈ classes, below c.1
  keys : ∀ c ∈ classes, ∀ k ∈ classKeys c, ∃ e ∈ seen, e.1 = k
  apart : classes.Pairwise fun c c' => ∀ k ∈ classKeys c, ∀ k' ∈ classKeys c', ∀ x, x ∈ k → x ∉ k'
  distinct : classes.Pairwise fun c c' => eq c.1 c'.1 = false
  holds : ∀ x p, (∃ c ∈ classes, (∃ k ∈ classKeys c, x ∈ k) ∧ Holds ds c.1 p) ↔
    LayersHold ds seen x p

theorem layersHold_append {e : LayerElem L × CanonicalHyperCubeSet L} {x : Item}
    {p : String → Item} : LayersHold ds (layers ++ [e]) x p ↔
      LayersHold ds layers x p ∨ x ∈ e.1 ∧ Holds ds e.2 p := by
  simp only [LayersHold, List.mem_append, List.mem_singleton, or_and_right, exists_or,
    exists_eq_left]

/-- Among the possible sub-cubes, `==` is only true of sets with the same points. -/
def EqSound (ds : List String) (below : CanonicalHyperCubeSet L → Prop) : Prop :=
  ∀ s s', below s → below s' → eq s s' = true → ∀ p, Holds ds s p ↔ Holds ds s' p

theorem eqSound_sub : EqSound ds (Sub space ds) :=
  fun _ _ left right equal => eq_sound left.1 right.1 equal

theorem classAppend_classes {below : CanonicalHyperCubeSet L → Prop} {seen : Layers L} {e : LayerElem L × CanonicalHyperCubeSet L}
    {classes : List (CanonicalHyperCubeSet L × LayerElem L × List (LayerElem L))}
    (sound : EqSound ds below) (inv : Classes ds below seen classes) (fits : below e.2)
    (apart : ∀ e' ∈ seen, ∀ x, x ∈ e'.1 → x ∉ e.1) :
    Classes ds below (seen ++ [e]) (classAppend e.2 e.1 classes) := by
  have seenApart : ∀ c ∈ classes, ∀ k ∈ classKeys c, ∀ x, x ∈ k → x ∉ e.1 := by
    intro c member k inside
    obtain ⟨e', member', rfl⟩ := inv.keys c member k inside
    exact apart e' member'
  rcases classAppend_cases e.2 e.1 classes with
    ⟨none, shape⟩ | ⟨before, key, first, others, after, rfl, same, shape⟩
  · rw [shape]
    refine ⟨?_, ?_, ?_, ?_, ?_⟩
    · intro c member
      rcases List.mem_append.mp member with old | new
      · exact inv.subs c old
      · rw [List.mem_singleton.mp new]
        exact fits
    · intro c member k inside
      rcases List.mem_append.mp member with old | new
      · obtain ⟨e', member', same⟩ := inv.keys c old k inside
        exact ⟨e', List.mem_append_left _ member', same⟩
      · rw [List.mem_singleton.mp new, classKeys, List.mem_singleton] at inside
        exact ⟨e, by simp, inside.symm⟩
    · refine List.pairwise_append.mpr ⟨inv.apart, by simp, ?_⟩
      intro c member c' member' k inside k' inside'
      rw [List.mem_singleton.mp member', classKeys, List.mem_singleton] at inside'
      rw [inside']
      exact seenApart c member k inside
    · refine List.pairwise_append.mpr ⟨inv.distinct, by simp, ?_⟩
      intro c member c' member'
      rw [List.mem_singleton.mp member']
      exact none c member
    · intro x p
      rw [layersHold_append, ← inv.holds]
      simp only [List.mem_append, List.mem_singleton, or_and_right, exists_or, exists_eq_left,
        classKeys]
  · have samePoints : ∀ p, Holds ds key p ↔ Holds ds e.2 p :=
      sound _ _ (inv.subs (key, first, others) (by simp)) fits same
    rw [shape]
    obtain ⟨apartBefore, apartRest, apartCross⟩ := List.pairwise_append.mp inv.apart
    obtain ⟨apartHead, apartAfter⟩ := List.pairwise_cons.mp apartRest
    obtain ⟨distinctBefore, distinctRest, distinctCross⟩ := List.pairwise_append.mp inv.distinct
    obtain ⟨distinctHead, distinctAfter⟩ := List.pairwise_cons.mp distinctRest
    have newKeys : ∀ k, k ∈ classKeys (key, first, others ++ [e.1]) ↔
        k ∈ classKeys (key, first, others) ∨ k = e.1 := by
      intro k
      simp only [classKeys, List.mem_cons, List.mem_append, List.not_mem_nil, or_false, or_assoc]
    refine ⟨?_, ?_, ?_, ?_, ?_⟩
    · intro c member
      simp only [List.mem_append, List.mem_cons] at member
      rcases member with old | rfl | old
      · exact inv.subs c (by simp [old])
      · exact inv.subs (key, first, others) (by simp)
      · exact inv.subs c (by simp [old])
    · have old : ∀ c ∈ before ++ (key, first, others) :: after, ∀ k ∈ classKeys c,
          ∃ e' ∈ seen ++ [e], e'.1 = k := by
        intro c member k inside
        obtain ⟨e', member', same⟩ := inv.keys c member k inside
        exact ⟨e', List.mem_append_left _ member', same⟩
      intro c member k inside
      simp only [List.mem_append, List.mem_cons] at member
      rcases member with earlier | rfl | later
      · exact old c (by simp [earlier]) k inside
      · rcases (newKeys k).mp inside with own | new
        · exact old _ (by simp) k own
        · exact ⟨e, by simp, new.symm⟩
      · exact old c (by simp [later]) k inside
    · refine List.pairwise_append.mpr ⟨apartBefore, List.pairwise_cons.mpr ⟨?_, apartAfter⟩, ?_⟩
      · intro c' member' k inside k' inside' x left right
        rcases (newKeys k).mp inside with own | rfl
        · exact apartHead c' member' k own k' inside' x left right
        · exact seenApart c' (by simp [member']) k' inside' x right left
      · intro c member c' member' k inside k' inside'
        rcases List.mem_cons.mp member' with rfl | later
        · rcases (newKeys k').mp inside' with own | rfl
          · exact apartCross c member _ List.mem_cons_self k inside k' own
          · exact seenApart c (by simp [member]) k inside
        · exact apartCross c member c' (List.mem_cons_of_mem _ later) k inside k' inside'
    · refine List.pairwise_append.mpr
        ⟨distinctBefore, List.pairwise_cons.mpr ⟨distinctHead, distinctAfter⟩, ?_⟩
      intro c member c' member'
      rcases List.mem_cons.mp member' with rfl | later
      · exact distinctCross c member (key, first, others) List.mem_cons_self
      · exact distinctCross c member c' (List.mem_cons_of_mem _ later)
    · intro x p
      rw [layersHold_append, ← inv.holds, ← samePoints]
      constructor
      · rintro ⟨c, member, ⟨k, inside, hit⟩, holds⟩
        simp only [List.mem_append, List.mem_cons] at member
        rcases member with earlier | rfl | later
        · exact Or.inl ⟨c, by simp [earlier], ⟨k, inside, hit⟩, holds⟩
        · rcases (newKeys k).mp inside with own | rfl
          · exact Or.inl ⟨_, by simp, ⟨k, own, hit⟩, holds⟩
          · exact Or.inr ⟨hit, holds⟩
        · exact Or.inl ⟨c, by simp [later], ⟨k, inside, hit⟩, holds⟩
      · rintro (⟨c, member, ⟨k, inside, hit⟩, holds⟩ | ⟨hit, holds⟩)
        · simp only [List.mem_append, List.mem_cons] at member
          rcases member with earlier | rfl | later
          · exact ⟨c, by simp [earlier], ⟨k, inside, hit⟩, holds⟩
          · exact ⟨_, List.mem_append_right _ List.mem_cons_self,
              ⟨k, (newKeys k).mpr (Or.inl inside), hit⟩, holds⟩
          · exact ⟨c, by simp [later], ⟨k, inside, hit⟩, holds⟩
        · exact ⟨_, List.mem_append_right _ List.mem_cons_self,
            ⟨e.1, (newKeys _).mpr (Or.inr rfl), hit⟩, holds⟩

theorem classes_all {below : CanonicalHyperCubeSet L → Prop} (sound : EqSound ds below)
    (parts : Parts space d below layers) :
    Classes ds below layers
      (layers.foldl (fun classes e => classAppend e.2 e.1 classes) []) := by
  have walk : ∀ (rest seen : Layers L)
      (classes : List (CanonicalHyperCubeSet L × LayerElem L × List (LayerElem L))),
      layers = seen ++ rest → Classes ds below seen classes →
      Classes ds below layers (rest.foldl (fun classes e => classAppend e.2 e.1 classes)
        classes) := by
    intro rest
    induction rest with
    | nil =>
      intro seen classes whole inv
      rw [whole, List.append_nil]
      exact inv
    | cons e rest ih =>
      intro seen classes whole inv
      refine ih (seen ++ [e]) _ (by simp [whole]) ?_
      refine classAppend_classes sound inv (parts.subs e (by simp [whole])) ?_
      intro e' member
      have apart := parts.apart
      rw [whole] at apart
      exact (List.pairwise_append.mp apart).2.2 e' member e List.mem_cons_self
  refine walk layers [] [] rfl ⟨by simp, by simp, .nil, .nil, ?_⟩
  intro x p
  simp [LayersHold]

/-- The result has pairwise different sub-cubes, all of them sub-cubes that were there before. -/
theorem applyLayerElementsUnion_parts {below : CanonicalHyperCubeSet L → Prop}
    (sound : EqSound ds below) (parts : Parts space d below layers) :
    Returns (applyLayerElementsUnion (mk (d :: ds) layers)) fun r => ∃ res,
      r = mk (d :: ds) res ∧ Parts space d below res ∧
      (res.Pairwise fun e e' => eq e.2 e'.2 = false) ∧
      ∀ p, Holds (d :: ds) r p ↔ LayersHold ds layers (p d) p := by
  have classes := classes_all sound parts
  unfold applyLayerElementsUnion
  dsimp only
  generalize layers.foldl (fun classes e => classAppend e.2 e.1 classes) [] = all at classes ⊢
  have keyOf : ∀ c ∈ all, ∀ k ∈ classKeys c, Key space d k := by
    intro c member k inside
    obtain ⟨e, member', rfl⟩ := classes.keys c member k inside
    exact parts.keys e member'
  refine returns_bind (returns_foldlM (fun done res =>
    Covers space d ds below res (fun x => ∃ c ∈ done, ∃ k ∈ classKeys c, x ∈ k)
        (fun x p => LayersHold ds layers x p) ∧
      (res.Pairwise fun e e' => eq e.2 e'.2 = false) ∧ ∀ e ∈ res, ∃ c ∈ done, c.1 = e.2) ?_ ?_) ?_
  · exact ⟨covers_congr covers_none (by simp), .nil, by simp⟩
  · rintro done c rest res rfl ⟨covers, distinct, origin⟩
    have member : c ∈ done ++ c :: rest := by simp
    have keys := keyOf c member
    refine returns_bind (LayerElem.foldlM_or_spec (keys c.2.1 List.mem_cons_self).shaped
      fun k inside => (keys k (List.mem_cons_of_mem _ inside)).shaped) ?_
    rintro k ⟨shaped, members⟩
    have key : Key space d k := by
      obtain ⟨x, inside⟩ := (keys c.2.1 List.mem_cons_self).some
      refine ⟨shaped, ⟨x, (members x).mpr ⟨_, List.mem_cons_self, inside⟩⟩, ?_⟩
      intro y hit
      obtain ⟨k', inside', hit'⟩ := (members y).mp hit
      exact (keys k' inside').within y hit'
    have apart := (List.pairwise_append.mp classes.apart).2.2
    have differ := (List.pairwise_append.mp classes.distinct).2.2
    have fresh : ∀ x, x ∈ k → ¬ ∃ c' ∈ done, ∃ k' ∈ classKeys c', x ∈ k' := by
      rintro x hit ⟨c', member', k', inside', hit'⟩
      obtain ⟨k'', inside'', hit''⟩ := (members x).mp hit
      exact apart c' member' c List.mem_cons_self k' inside' k'' inside'' x hit' hit''
    have right : ∀ x, x ∈ k → ∀ p, Holds ds c.1 p ↔ LayersHold ds layers x p := by
      intro x hit p
      obtain ⟨k', inside', hit'⟩ := (members x).mp hit
      obtain ⟨e, member', rfl⟩ := classes.keys c member k' inside'
      rw [← classes.holds]
      constructor
      · exact fun holds => ⟨c, member, ⟨_, inside', hit'⟩, holds⟩
      · rintro ⟨c', memberC, ⟨k'', inside'', hit''⟩, holds⟩
        -- the value lies in the keys of one class only
        rcases List.mem_append.mp memberC with earlier | later
        · exact (apart c' earlier c List.mem_cons_self k'' inside'' _ inside' x hit'' hit').elim
        · rcases List.mem_cons.mp later with rfl | after
          · exact holds
          · have apartRest := (List.pairwise_append.mp classes.apart).2.1
            exact ((List.pairwise_cons.mp apartRest).1 c' after _ inside' k'' inside'' x hit'
              hit'').elim
    have differs : ∀ e ∈ res, e.1 ≠ k := by
      intro e memberE same
      obtain ⟨x, inside⟩ := key.some
      exact fresh x inside (covers.inside e memberE x (same ▸ inside))
    refine returns_pure ⟨?_, ?_, ?_⟩
    · refine covers_add covers key (classes.subs c member) fresh right fun x => ?_
      rw [members]
      simp only [List.mem_append, List.mem_singleton, or_and_right, exists_or, exists_eq_left]
    · rw [Dict.set_fresh _ differs]
      refine List.pairwise_append.mpr ⟨distinct, by simp, ?_⟩
      intro e memberE e' memberE'
      obtain ⟨c', memberC, same⟩ := origin e memberE
      rw [List.mem_singleton.mp memberE', ← same]
      exact differ c' memberC c List.mem_cons_self
    · rw [Dict.set_fresh _ differs]
      intro e memberE
      rcases List.mem_append.mp memberE with old | new
      · obtain ⟨c', memberC, same⟩ := origin e old
        exact ⟨c', List.mem_append_left _ memberC, same⟩
      · rw [List.mem_singleton.mp new]
        exact ⟨c, by simp, rfl⟩
  · rintro res ⟨covers, distinct, _⟩
    refine returns_pure ⟨res, rfl, covers.parts, distinct, fun p => ?_⟩
    rw [holds_cons]
    refine covers_all covers ?_ (p d) p
    intro x outside q holds
    obtain ⟨c, member, ⟨k, inside, hit⟩, _⟩ := (classes.holds x q).mpr holds
    exact outside ⟨c, member, k, inside, hit⟩

theorem applyLayerElementsUnion_spec (parts : Parts space d (Sub space ds) layers) :
    Returns (applyLayerElementsUnion (mk (d :: ds) layers)) fun r =>
      Level space (d :: ds) r ∧ ∀ p, Holds (d :: ds) r p ↔ LayersHold ds layers (p d) p := by
  refine returns_mono (applyLayerElementsUnion_parts eqSound_sub parts) ?_
  rintro r ⟨res, rfl, parts, distinct, holds⟩
  exact ⟨⟨res, rfl, parts, distinct⟩, holds⟩

end CanonicalHyperCubeSet
end Nca.CoreDS
