import Nca.CoreDS.CanonicalHyperCubeSet
import Nca.CoreDS.LayerLaws

/-!
The points of a hypercube set, and its canonical form. Two sets over the same active dimensions
that are canonical at every level are equal exactly when they hold the same points.
-/

namespace Nca.CoreDS
open Lib Python Space

variable {L : Type} [ExactSet L String]

namespace CanonicalHyperCubeSet

/-- The point lies in the set, whose active dimensions are the given ones. -/
def Holds : List String → CanonicalHyperCubeSet L → (String → Item) → Prop
  | [], _, _ => True
  | d :: ds, h, p => ∃ e ∈ h.layers, p d ∈ e.1 ∧ Holds ds e.2 p

/-- The layers hold the point when its first active coordinate is `x`. -/
def LayersHold (ds : List String) (layers : Layers L) (x : Item) (p : String → Item) : Prop :=
  ∃ e ∈ layers, x ∈ e.1 ∧ Holds ds e.2 p

/-- Keys over one dimension that exclude each other, with sub-cubes that are all `below`. -/
structure Parts (space : Space L) (d : String) (below : CanonicalHyperCubeSet L → Prop)
    (layers : Layers L) : Prop where
  keys : ∀ e ∈ layers, Key space d e.1
  subs : ∀ e ∈ layers, below e.2
  apart : layers.Pairwise fun e e' => ∀ x, x ∈ e.1 → x ∉ e'.1

/-- The canonical form of a set over these active dimensions: keys that are non-empty and exclude
each other, and sub-cubes that are pairwise distinct, in canonical form and non-empty. -/
def Level (space : Space L) : List String → CanonicalHyperCubeSet L → Prop
  | [], h => h = emptyInterval
  | d :: ds, h => ∃ layers, h = mk (d :: ds) layers ∧
      Parts space d (fun sub => Level space ds sub ∧ (ds ≠ [] → sub.layers ≠ [])) layers ∧
      layers.Pairwise fun e e' => eq e.2 e'.2 = false

/-- A set in canonical form that may stand as a sub-cube. -/
def Sub (space : Space L) (ds : List String) (h : CanonicalHyperCubeSet L) : Prop :=
  Level space ds h ∧ (ds ≠ [] → h.layers ≠ [])

/-- Layers over these active dimensions whose keys exclude each other. -/
def Layered (space : Space L) : List String → CanonicalHyperCubeSet L → Prop
  | [], _ => True
  | d :: ds, h => ∃ layers, h = mk (d :: ds) layers ∧ Parts space d (Layered space ds) layers

/-- The same points of the space. -/
def SamePoints (space : Space L) (ds : List String) (h h' : CanonicalHyperCubeSet L) : Prop :=
  ∀ p, Point space p → (Holds ds h p ↔ Holds ds h' p)

variable {space : Space L} {d : String} {ds : List String} {layers layers' : Layers L}
  {h h' : CanonicalHyperCubeSet L}

omit [ExactSet L String] in
@[simp] theorem active_mk : (mk ds layers).active_dimensions = ds := rfl

omit [ExactSet L String] in
@[simp] theorem layers_mk : (mk ds layers).layers = layers := rfl

theorem samePoints_symm (same : SamePoints space ds h h') : SamePoints space ds h' h :=
  fun p point => (same p point).symm

theorem samePoints_trans {h'' : CanonicalHyperCubeSet L} (first : SamePoints space ds h h')
    (second : SamePoints space ds h' h'') : SamePoints space ds h h'' :=
  fun p point => (first p point).trans (second p point)

theorem holds_congr {p q : String → Item} (agree : ∀ d ∈ ds, p d = q d) :
    Holds ds h p ↔ Holds ds h q := by
  induction ds generalizing h with
  | nil => exact Iff.rfl
  | cons d ds ih =>
    unfold Holds
    rw [agree d List.mem_cons_self]
    have below : ∀ sub : CanonicalHyperCubeSet L, Holds ds sub p ↔ Holds ds sub q :=
      fun sub => ih fun d' member => agree d' (List.mem_cons_of_mem d member)
    simp only [below]

theorem holds_update {p : String → Item} {x : Item} (fresh : d ∉ ds) :
    Holds ds h (Function.update p d x) ↔ Holds ds h p := by
  refine holds_congr fun d' member => ?_
  have other : d' ≠ d := fun same => fresh (same ▸ member)
  simp [other]

theorem holds_cons {active : List String} {p : String → Item} :
    Holds (d :: ds) (mk active layers) p ↔ LayersHold ds layers (p d) p := Iff.rfl

theorem parts_mono {below below' : CanonicalHyperCubeSet L → Prop}
    (parts : Parts space d below layers) (imp : ∀ sub, below sub → below' sub) :
    Parts space d below' layers :=
  ⟨parts.keys, fun e member => imp e.2 (parts.subs e member), parts.apart⟩

theorem level_layered (level : Level space ds h) : Layered space ds h := by
  induction ds generalizing h with
  | nil => trivial
  | cons d ds ih =>
    obtain ⟨layers, rfl, parts, _⟩ := level
    exact ⟨layers, rfl, parts_mono parts fun sub below => ih below.1⟩

theorem entry_unique {below : CanonicalHyperCubeSet L → Prop}
    (parts : Parts space d below layers) {e e' : LayerElem L × CanonicalHyperCubeSet L}
    (member : e ∈ layers) (member' : e' ∈ layers) {x : Item} (inside : x ∈ e.1)
    (inside' : x ∈ e'.1) : e = e' := by
  by_contra differ
  have : Std.Symm fun e e' : LayerElem L × CanonicalHyperCubeSet L =>
      ∀ x, x ∈ e.1 → x ∉ e'.1 := ⟨fun a b apart x right left => apart x left right⟩
  exact List.Pairwise.forall parts.apart member member' differ x inside inside'

theorem layersHold_entry {below : CanonicalHyperCubeSet L → Prop}
    (parts : Parts space d below layers) {e : LayerElem L × CanonicalHyperCubeSet L}
    (member : e ∈ layers) {x : Item} (inside : x ∈ e.1) {p : String → Item} :
    LayersHold ds layers x p ↔ Holds ds e.2 p := by
  constructor
  · rintro ⟨e', member', inside', holds⟩
    rw [entry_unique parts member member' inside inside']
    exact holds
  · intro holds
    exact ⟨e, member, inside, holds⟩

theorem keys_nodup {below : CanonicalHyperCubeSet L → Prop}
    (parts : Parts space d below layers) : (Dict.keys layers).Nodup := by
  unfold Dict.keys List.Nodup
  rw [List.pairwise_map]
  refine List.Pairwise.imp_of_mem ?_ parts.apart
  intro e e' member _ apart same
  obtain ⟨x, inside⟩ := (parts.keys e member).some
  exact apart x inside (same ▸ inside)

theorem level_mk (level : Level space (d :: ds) h) :
    h = mk (d :: ds) h.layers ∧ Parts space d (Sub space ds) h.layers ∧
      h.layers.Pairwise fun e e' => eq e.2 e'.2 = false := by
  obtain ⟨layers, rfl, parts, distinct⟩ := level
  exact ⟨rfl, parts, distinct⟩

/-- A sub-cube has a point, which may agree with any given one outside its dimensions. -/
theorem sub_point (sub : Sub space ds h) (nodup : ds.Nodup)
    (known : ds ⊆ space.all_dimensions_list) {q : String → Item} (point : Point space q) :
    ∃ p, Point space p ∧ Holds ds h p ∧ ∀ d, d ∉ ds → p d = q d := by
  induction ds generalizing h with
  | nil => exact ⟨q, point, trivial, fun _ _ => rfl⟩
  | cons d ds ih =>
    obtain ⟨level, some⟩ := sub
    obtain ⟨shape, parts, distinct⟩ := level_mk level
    obtain ⟨e, member⟩ := List.exists_mem_of_ne_nil _ (some (List.cons_ne_nil d ds))
    obtain ⟨fresh, rest⟩ := List.nodup_cons.mp nodup
    obtain ⟨p, point', holds, outside⟩ := ih (parts.subs e member) rest
      (fun d' member => known (List.mem_cons_of_mem d member))
    have key := parts.keys e member
    obtain ⟨x, inside⟩ := key.some
    refine ⟨Function.update p d x, point_update point' (key.within x inside), ?_, ?_⟩
    · refine ⟨e, member, by simpa using inside, (holds_update fresh).mpr holds⟩
    · intro d' out
      obtain ⟨other, out⟩ := not_or.mp (fun h => out (List.mem_cons.mpr h))
      rw [Function.update_of_ne other]
      exact outside d' out

theorem layersWithin_iff : layersWithin layers layers' = true ↔
    ∀ e ∈ layers, ∃ sub, Dict.get layers' e.1 = some sub ∧ eq e.2 sub = true := by
  induction layers with
  | nil => simp [layersWithin]
  | cons e rest ih =>
    obtain ⟨layer, sub_elem⟩ := e
    rw [layersWithin, Bool.and_eq_true, ih, List.forall_mem_cons]
    refine and_congr_left' ?_
    dsimp only
    cases found : Dict.get layers' layer with
    | none => simp
    | some sub => simp

theorem eq_mk (active : List String) (some : active ≠ []) :
    eq (mk active layers) (mk active layers') = true ↔
      layers.length = layers'.length ∧ layersWithin layers layers' = true := by
  cases active with
  | nil => exact (some rfl).elim
  | cons d ds =>
    rw [eq]
    cases layers with
    | nil => cases layers' <;> simp [bool, layersWithin]
    | cons e rest => cases layers' <;> simp [bool]

/-- Layers of as many entries, each found in the other: then also the other way round. -/
theorem entry_back {below : CanonicalHyperCubeSet L → Prop}
    (parts : Parts space d below layers) (parts' : Parts space d below layers')
    (length : layers.length = layers'.length) (within : layersWithin layers layers' = true)
    {e' : LayerElem L × CanonicalHyperCubeSet L} (member' : e' ∈ layers') :
    ∃ e ∈ layers, e.1 = e'.1 ∧ eq e.2 e'.2 = true := by
  have found := layersWithin_iff.mp within
  have subset : Dict.keys layers ⊆ Dict.keys layers' := by
    intro k inside
    obtain ⟨e, member, rfl⟩ := List.mem_map.mp inside
    obtain ⟨sub, hit, _⟩ := found e member
    exact Dict.get_isSome.mp (by simp [hit])
  have perm : (Dict.keys layers).Perm (Dict.keys layers') := by
    refine List.Subperm.perm_of_length_le ((keys_nodup parts).subperm subset) ?_
    simp [Dict.keys, length]
  obtain ⟨e, member, same⟩ := List.mem_map.mp
    (perm.symm.subset (List.mem_map_of_mem member'))
  obtain ⟨sub, hit, equal⟩ := found e member
  have own := Dict.get_of_mem (keys_nodup parts') member'
  rw [same, own] at hit
  obtain rfl := Option.some.inj hit
  exact ⟨e, member, same, equal⟩

theorem eq_sound (level : Level space ds h) (level' : Level space ds h')
    (equal : eq h h' = true) (p : String → Item) : Holds ds h p ↔ Holds ds h' p := by
  induction ds generalizing h h' with
  | nil => exact Iff.rfl
  | cons d ds ih =>
    obtain ⟨layers, rfl, parts, _⟩ := level
    obtain ⟨layers', rfl, parts', _⟩ := level'
    obtain ⟨length, within⟩ := (eq_mk _ (List.cons_ne_nil d ds)).mp equal
    constructor
    · rintro ⟨e, member, inside, holds⟩
      obtain ⟨sub, found, same⟩ := layersWithin_iff.mp within e member
      have member' := Dict.get_mem found
      refine ⟨(e.1, sub), member', inside, ?_⟩
      exact (ih (parts.subs e member).1 (parts'.subs _ member').1 same).mp holds
    · rintro ⟨e', member', inside, holds⟩
      obtain ⟨e, member, sameKey, same⟩ := entry_back parts parts' length within member'
      refine ⟨e, member, sameKey ▸ inside, ?_⟩
      exact (ih (parts.subs e member).1 (parts'.subs e' member').1 same).mpr holds

/-- Layers whose sub-cubes hold pairwise different points. -/
def Distinct (space : Space L) (ds : List String) (layers : Layers L) : Prop :=
  layers.Pairwise fun e e' => ¬ SamePoints space ds e.2 e'.2

theorem distinct_unique (distinct : Distinct space ds layers)
    {e e' : LayerElem L × CanonicalHyperCubeSet L} (member : e ∈ layers) (member' : e' ∈ layers)
    (same : SamePoints space ds e.2 e'.2) : e = e' := by
  by_contra differ
  have : Std.Symm fun e e' : LayerElem L × CanonicalHyperCubeSet L =>
      ¬ SamePoints space ds e.2 e'.2 := ⟨fun a b ne same => ne (samePoints_symm same)⟩
  exact List.Pairwise.forall distinct member member' differ same

theorem holds_at {below : CanonicalHyperCubeSet L → Prop} (active : List String)
    (parts : Parts space d below layers) (fresh : d ∉ ds)
    {e : LayerElem L × CanonicalHyperCubeSet L} (member : e ∈ layers) {x : Item}
    (inside : x ∈ e.1) (p : String → Item) :
    Holds (d :: ds) (mk active layers) (Function.update p d x) ↔ Holds ds e.2 p := by
  rw [holds_cons, Function.update_self, layersHold_entry parts member inside, holds_update fresh]

/-- Every key of the first layers lies in a key of the second, over the same residual points. -/
theorem key_within {active : List String} (parts : Parts space d (Sub space ds) layers)
    (parts' : Parts space d (Sub space ds) layers') (distinct' : Distinct space ds layers')
    (nodup : (d :: ds).Nodup) (known : d :: ds ⊆ space.all_dimensions_list)
    (same : SamePoints space (d :: ds) (mk active layers) (mk active layers'))
    {e : LayerElem L × CanonicalHyperCubeSet L} (member : e ∈ layers) :
    ∃ e' ∈ layers', (∀ x, x ∈ e.1 → x ∈ e'.1) ∧ SamePoints space ds e.2 e'.2 := by
  obtain ⟨fresh, rest⟩ := List.nodup_cons.mp nodup
  have below : ds ⊆ space.all_dimensions_list := fun d' inside =>
    known (List.mem_cons_of_mem d inside)
  obtain ⟨q, point⟩ := point_exists space
  obtain ⟨p, pointP, holdsP, _⟩ := sub_point (parts.subs e member) rest below point
  have each : ∀ x, x ∈ e.1 → ∃ e' ∈ layers', x ∈ e'.1 ∧ SamePoints space ds e.2 e'.2 := by
    intro x inside
    have valid := (parts.keys e member).within x inside
    have holds := (holds_at active parts fresh member inside p).mpr holdsP
    obtain ⟨e', member', inside', _⟩ := (same _ (point_update pointP valid)).mp holds
    rw [Function.update_self] at inside'
    refine ⟨e', member', inside', fun r pointR => ?_⟩
    rw [← holds_at active parts fresh member inside r,
      ← holds_at active parts' fresh member' inside' r]
    exact same _ (point_update pointR valid)
  obtain ⟨x, inside⟩ := (parts.keys e member).some
  obtain ⟨e', member', _, residual⟩ := each x inside
  refine ⟨e', member', fun y insideY => ?_, residual⟩
  obtain ⟨e'', member'', insideY', residual'⟩ := each y insideY
  rw [distinct_unique distinct' member' member''
    (samePoints_trans (samePoints_symm residual) residual')]
  exact insideY'

theorem entry_match {active : List String} (parts : Parts space d (Sub space ds) layers)
    (parts' : Parts space d (Sub space ds) layers') (distinct : Distinct space ds layers)
    (distinct' : Distinct space ds layers') (nodup : (d :: ds).Nodup)
    (known : d :: ds ⊆ space.all_dimensions_list)
    (same : SamePoints space (d :: ds) (mk active layers) (mk active layers'))
    {e : LayerElem L × CanonicalHyperCubeSet L} (member : e ∈ layers) :
    ∃ e' ∈ layers', e'.1 = e.1 ∧ SamePoints space ds e.2 e'.2 := by
  obtain ⟨e', member', within, residual⟩ :=
    key_within parts parts' distinct' nodup known same member
  obtain ⟨e'', member'', back, _⟩ :=
    key_within parts' parts distinct nodup known (samePoints_symm same) member'
  obtain ⟨x, inside⟩ := (parts.keys e member).some
  obtain rfl := entry_unique parts member member'' inside (back x (within x inside))
  refine ⟨e', member', ?_, residual⟩
  exact LayerElem.ext (parts'.keys e' member').shaped (parts.keys e member).shaped
    fun y => ⟨back y, within y⟩

theorem eq_complete (level : Level space ds h) (level' : Level space ds h') (nodup : ds.Nodup)
    (known : ds ⊆ space.all_dimensions_list) (same : SamePoints space ds h h') :
    eq h h' = true := by
  induction ds generalizing h h' with
  | nil =>
    obtain rfl : h = emptyInterval := level
    obtain rfl : h' = emptyInterval := level'
    rfl
  | cons d ds ih =>
    obtain ⟨layers, rfl, parts, apart⟩ := level
    obtain ⟨layers', rfl, parts', apart'⟩ := level'
    have below : ds ⊆ space.all_dimensions_list := fun d' inside =>
      known (List.mem_cons_of_mem d inside)
    have rest := (List.nodup_cons.mp nodup).2
    have step : ∀ {all : Layers L}, Parts space d (Sub space ds) all →
        (all.Pairwise fun e e' => eq e.2 e'.2 = false) → Distinct space ds all := by
      intro all partsAll apartAll
      refine List.Pairwise.imp_of_mem ?_ apartAll
      intro e e' member member' differ samePoints
      rw [ih (partsAll.subs e member).1 (partsAll.subs e' member').1 rest below samePoints] at differ
      cases differ
    have distinct := step parts apart
    have distinct' := step parts' apart'
    have forward : ∀ e ∈ layers, ∃ e' ∈ layers', e'.1 = e.1 ∧ SamePoints space ds e.2 e'.2 :=
      fun e member => entry_match parts parts' distinct distinct' nodup known same member
    have backward : ∀ e ∈ layers', ∃ e' ∈ layers, e'.1 = e.1 ∧ SamePoints space ds e.2 e'.2 :=
      fun e member =>
        entry_match parts' parts distinct' distinct nodup known (samePoints_symm same) member
    have subset : ∀ {all all' : Layers L},
        (∀ e ∈ all, ∃ e' ∈ all', e'.1 = e.1 ∧ SamePoints space ds e.2 e'.2) →
        Dict.keys all ⊆ Dict.keys all' := by
      intro all all' each k inside
      obtain ⟨e, member, rfl⟩ := List.mem_map.mp inside
      obtain ⟨e', member', sameKey, _⟩ := each e member
      exact sameKey ▸ List.mem_map_of_mem member'
    have length : layers.length = layers'.length := by
      have le := ((keys_nodup parts).subperm (subset forward)).length_le
      have ge := ((keys_nodup parts').subperm (subset backward)).length_le
      simp only [Dict.keys, List.length_map] at le ge
      omega
    refine (eq_mk _ (List.cons_ne_nil d ds)).mpr ⟨length, layersWithin_iff.mpr ?_⟩
    intro e member
    obtain ⟨e', member', sameKey, samePoints⟩ := forward e member
    refine ⟨e'.2, ?_, ih (parts.subs e member).1 (parts'.subs e' member').1 rest below samePoints⟩
    rw [← sameKey]
    exact Dict.get_of_mem (keys_nodup parts') member'

/-- In canonical form, `==` compares the points. -/
theorem eq_iff_samePoints (level : Level space ds h) (level' : Level space ds h')
    (nodup : ds.Nodup) (known : ds ⊆ space.all_dimensions_list) :
    eq h h' = true ↔ SamePoints space ds h h' :=
  ⟨fun equal p _ => eq_sound level level' equal p, eq_complete level level' nodup known⟩

theorem pairwise_distinct (nodup : ds.Nodup) (known : ds ⊆ space.all_dimensions_list)
    (parts : Parts space d (Sub space ds) layers) :
    (layers.Pairwise fun e e' => eq e.2 e'.2 = false) ↔ Distinct space ds layers := by
  have each : ∀ e ∈ layers, ∀ e' ∈ layers,
      (eq e.2 e'.2 = false ↔ ¬ SamePoints space ds e.2 e'.2) := by
    intro e member e' member'
    rw [← eq_iff_samePoints (parts.subs e member).1 (parts.subs e' member').1 nodup known,
      Bool.not_eq_true]
  constructor
  · exact List.Pairwise.imp_of_mem fun member member' => (each _ member _ member').mp
  · exact List.Pairwise.imp_of_mem fun member member' => (each _ member _ member').mpr

end CanonicalHyperCubeSet
end Nca.CoreDS
