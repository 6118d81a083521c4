import Mathlib.Data.Bool.AllAny
import Nca.CoreDS.ConnectivitySpace

/-!
Projecting connectivity properties on one dimension. The values of all cubes in the dimension are
united, in the format in which the dimension is shown: peer sets, port sets, or values as they are.
-/

namespace Nca.CoreDS
open Lib Python Space CanonicalHyperCubeSet BasePeerSet

variable {D K : Type} [MinDFA D] [DecidableEq K]

/-- `interval_set` of a value as an attribute: an automaton has none. -/
def LayerElem.getIntervals : LayerElem (DfaElem D) → Except Failure CanonicalIntervalSet
  | intervals s => pure s
  | dfa _ => .error .attribute

/-- The values of a dimension in external format; a port set has no named ports here. -/
inductive DimensionValues (D : Type) where
  | peerSet (peer_set : Nat)
  | portSet (port_set : CanonicalIntervalSet)
  | plain (value : LayerElem (DfaElem D))

namespace DimensionValues

variable (heap : Objects K)

def bool : DimensionValues D → Except Failure Bool
  | peerSet peer_set => do pure (!(← item heap.sets peer_set).isEmpty)
  | portSet port_set => pure port_set.bool
  | plain value => pure value.bool

/-- `res |= values`. -/
def ior : DimensionValues D → DimensionValues D → Except Failure (DimensionValues D × Objects K)
  | peerSet res, peerSet values => do
    let (res, heap) ← PeerSetRef.ior heap res values
    pure (peerSet res, heap)
  | portSet res, portSet values => do pure (portSet (← res.or values), heap)
  | plain res, plain values => do pure (plain (← res.or values), heap)
  | _, _ => .error .attribute

/-- What a turn of the loop over the cubes makes of the result and the values of a cube. -/
def unite (res values : DimensionValues D) : Except Failure (DimensionValues D × Objects K) := do
  if ← values.bool heap then
    if ← res.bool heap then ior heap res values else pure (values, heap)
  else pure (res, heap)

end DimensionValues

section Project
variable (space : Space (DfaElem D))

/-- A `ConnectivityCube`: values of all dimensions in internal format. -/
abbrev CubeDict (D : Type) := List (String × LayerElem (DfaElem D))

/-- `ConnectivityCube(dimensions_list)`. -/
def initCube : Except Failure (CubeDict D) :=
  space.all_dimensions_list.foldlM (fun cube dim => do
    pure (Dict.set cube dim (← space.manager.getDimensionDomainByName dim))) []

def setDimDirectly (cube : CubeDict D) (dim_name : String) (dim_value : LayerElem (DfaElem D)) :
    Except Failure (CubeDict D) := do
  assert (dim_name ∈ space.all_dimensions_list)
  pure (Dict.set cube dim_name dim_value)

def getDimDirectly (cube : CubeDict D) (dim_name : String) : Except Failure (LayerElem (DfaElem D)) := do
  assert (dim_name ∈ space.all_dimensions_list)
  match Dict.get cube dim_name with
  | some dim_value => pure dim_value
  | none => .error .key

def getConnectivityCube (active_dimensions : List String) (cube : List (LayerElem (DfaElem D))) :
    Except Failure (CubeDict D) := do
  (cube.zip active_dimensions).foldlM (fun res entry => setDimDirectly space res entry.2 entry.1)
    (← initCube space)

variable (peers : RegisteredPeers K) (heap : Objects K)

/-- The peer set of a value of a dimension of peers. -/
def getPeers (value : LayerElem (DfaElem D)) : Except Failure (DimensionValues D × Objects K) := do
  let (peer_set, heap) ← peers.getPeerSetByIndices heap (← value.getIntervals)
  pure (.peerSet peer_set, heap)

/-- `conn_cube[dim_name]`, for the dimensions that are not of ICMP data. -/
def getDim (cube : CubeDict D) (dim_name : String) : Except Failure (DimensionValues D × Objects K) := do
  let dim_value ← getDimDirectly space cube dim_name
  if IsPeers dim_name then do
    let domain ← space.manager.getDimensionDomainByName dim_name
    if dim_value ≠ domain then getPeers peers heap dim_value else getPeers peers heap domain
  else if IsPorts dim_name then do
    pure (.portSet (← ({} : CanonicalIntervalSet).or (← dim_value.getIntervals)), heap)
  else pure (.plain dim_value, heap)

/-- The value that `project_on_one_dimension` starts from. -/
def emptyProjection (dim_name : String) : Except Failure (DimensionValues D × Objects K) :=
  if IsPeers dim_name then
    let (peer_set, heap) := heap.newPeerSet []
    pure (.peerSet peer_set, heap)
  else if IsPorts dim_name then pure (.portSet {}, heap)
  else do pure (.plain (← getEmptyDimensionByName D space.manager dim_name), heap)

/-- One turn of the loop over the cubes. -/
def addCubeValues (active_dimensions : List String) (dim_name : String)
    (acc : DimensionValues D × Objects K) (cube : List (LayerElem (DfaElem D))) :
    Except Failure (DimensionValues D × Objects K) := do
  let conn_cube ← getConnectivityCube space active_dimensions cube
  let (values, heap) ← getDim space peers acc.2 conn_cube dim_name
  acc.1.unite heap values

def projectOnOneDimension (self : CanonicalHyperCubeSet (DfaElem D)) (dim_name : String) :
    Except Failure (DimensionValues D × Objects K) := do
  assert (dim_name ∉ ["icmp_type", "icmp_code"])
  if dim_name ∉ self.active_dimensions then do
    let domain ← space.manager.getDimensionDomainByName dim_name
    if IsPeers dim_name then getPeers peers heap domain else pure (.plain domain, heap)
  else do
    let res ← emptyProjection space heap dim_name
    (← iter space self).foldlM (addCubeValues space peers self.active_dimensions dim_name) res

end Project

/-- The values of a dimension that some point of the set has. -/
def projection (space : Space (DfaElem D)) (self : CanonicalHyperCubeSet (DfaElem D)) (dim_name : String) :
    Set Item :=
  {x | ∃ p, Point space p ∧ Has self p ∧ p dim_name = x}

/-- The value is one that a cube of the set has in the dimension. -/
def Takes (space : Space (DfaElem D)) (self : CanonicalHyperCubeSet (DfaElem D)) (dim_name : String)
    (value : LayerElem (DfaElem D)) : Prop :=
  if dim_name ∈ self.active_dimensions then
    ∃ cube, IsCube self.active_dimensions self cube ∧ (value, dim_name) ∈ cube.zip self.active_dimensions
  else value = space.domain dim_name

variable {space : Space (DfaElem D)} {self : CanonicalHyperCubeSet (DfaElem D)} {d : String}
  {ds : List String} {cube : List (LayerElem (DfaElem D))} {value : LayerElem (DfaElem D)}

theorem zip_at (keys : List.Forall₂ (fun value d => Key space d value) cube ds) (member : d ∈ ds) :
    ∃ value, (value, d) ∈ cube.zip ds ∧ Key space d value := by
  induction keys with
  | nil => cases member
  | @cons value d' cube ds key rest ih =>
    rcases List.mem_cons.mp member with rfl | later
    · exact ⟨value, List.mem_cons_self, key⟩
    · obtain ⟨value', listed, key'⟩ := ih later
      exact ⟨value', List.mem_cons_of_mem _ listed, key'⟩

theorem inCube_update {p : String → Item} {x : Item} (fresh : d ∉ ds) (inside : InCube cube ds p) :
    InCube cube ds (Function.update p d x) := by
  intro entry listed
  have other : entry.2 ≠ d := fun same => fresh (same ▸ (List.of_mem_zip listed).2)
  rw [Function.update_of_ne other]
  exact inside entry listed

/-- A point of a cube gets a coordinate for one more dimension. -/
theorem inCube_extend {p : String → Item} {x : Item} (fresh : d ∉ ds) (inside : InCube cube ds p)
    (first : x ∈ value) : InCube (value :: cube) (d :: ds) (Function.update p d x) := by
  rw [inCube_cons, Function.update_self]
  exact ⟨first, inCube_update fresh inside⟩

theorem cube_some (keys : List.Forall₂ (fun value d => Key space d value) cube ds) (nodup : ds.Nodup) :
    ∃ p, Point space p ∧ InCube cube ds p := by
  induction keys with
  | nil =>
    obtain ⟨p, point⟩ := point_exists space
    exact ⟨p, point, by simp [InCube]⟩
  | @cons value d cube ds key rest ih =>
    obtain ⟨fresh, others⟩ := List.nodup_cons.mp nodup
    obtain ⟨p, point, inside⟩ := ih others
    obtain ⟨x, first⟩ := key.some
    exact ⟨_, point_update point (key.within x first), inCube_extend fresh inside first⟩

/-- A cube has a point that takes a given one of its values. -/
theorem cube_point (keys : List.Forall₂ (fun value d => Key space d value) cube ds) (nodup : ds.Nodup)
    (listed : (value, d) ∈ cube.zip ds) {x : Item} (inside : x ∈ value) :
    ∃ p, Point space p ∧ InCube cube ds p ∧ p d = x := by
  induction keys with
  | nil => cases listed
  | @cons value' d' cube ds key rest ih =>
    obtain ⟨fresh, others⟩ := List.nodup_cons.mp nodup
    rcases List.mem_cons.mp listed with same | later
    · obtain ⟨rfl, rfl⟩ := Prod.mk.inj same
      obtain ⟨p, point, below⟩ := cube_some rest others
      exact ⟨_, point_update point (key.within x inside), inCube_extend fresh below inside,
        Function.update_self ..⟩
    · obtain ⟨p, point, below, taken⟩ := ih others later
      obtain ⟨y, first⟩ := key.some
      refine ⟨_, point_update point (key.within y first), inCube_extend fresh below first, ?_⟩
      have other : d ≠ d' := fun same => fresh (same ▸ (List.of_mem_zip later).2)
      rw [Function.update_of_ne other, taken]

/-- The values that points have are those of the cubes. -/
theorem mem_projection (wellLayered : WellLayered space self) (some : ∃ p, Point space p ∧ Has self p)
    (known : d ∈ space.all_dimensions_list) {x : Item} :
    x ∈ projection space self d ↔ ∃ value, Takes space self d value ∧ x ∈ value := by
  unfold Takes
  by_cases active : d ∈ self.active_dimensions
  · have layered := wellLayered.layered (List.ne_nil_of_mem active)
    simp only [if_pos active]
    constructor
    · intro ⟨p, point, has, here⟩
      obtain ⟨cube, isCube, inside⟩ := holds_iff_cube.mp has
      obtain ⟨value, listed, _⟩ := zip_at (isCube_keys layered isCube) active
      refine ⟨value, ⟨cube, isCube, listed⟩, ?_⟩
      rw [← here]
      exact inside _ listed
    · intro ⟨value, ⟨cube, isCube, listed⟩, inside⟩
      obtain ⟨p, point, within, here⟩ := cube_point (isCube_keys layered isCube)
        (space.nodup.sublist wellLayered.ordered) listed inside
      exact ⟨p, point, holds_iff_cube.mpr ⟨cube, isCube, within⟩, here⟩
  · simp only [if_neg active, exists_eq_left]
    constructor
    · intro ⟨p, point, _, here⟩
      rw [← here]
      exact point d known
    · intro inside
      obtain ⟨p, point, has⟩ := some
      exact ⟨Function.update p d x, point_update point inside, (holds_update active).mpr has,
        Function.update_self ..⟩

theorem initCube_spec (space : Space (DfaElem D)) : Returns (initCube space) fun _ => True := by
  apply returns_foldlM (fun _ _ => True) trivial
  intro before dim after acc whole _
  have known : dim ∈ space.all_dimensions_list := by
    rw [whole]
    exact List.mem_append_right before List.mem_cons_self
  rw [getDomain_eq known, ok_bind]
  exact returns_pure trivial

/-- The dictionary of a cube has the values of the cube. -/
theorem getConnectivityCube_spec (known : ds ⊆ space.all_dimensions_list) (nodup : ds.Nodup)
    (sameLength : cube.length = ds.length) :
    Returns (getConnectivityCube space ds cube) fun res =>
      ∀ entry ∈ cube.zip ds, Dict.get res entry.2 = some entry.1 := by
  apply returns_bind (initCube_spec space)
  intro start _
  apply returns_foldlM (fun (before : List (LayerElem (DfaElem D) × String)) acc =>
    ∀ entry ∈ before, Dict.get acc entry.2 = some entry.1) (List.forall_mem_nil _)
  intro before entry after acc whole written
  have listed : entry ∈ cube.zip ds := by
    rw [whole]
    exact List.mem_append_right before List.mem_cons_self
  unfold setDimDirectly
  rw [assert_bind (known (List.of_mem_zip listed).2)]
  apply returns_pure
  intro entry' member
  rw [Dict.get_set]
  rcases List.mem_append.mp member with earlier | new
  · have names : ((cube.zip ds).map Prod.snd).Nodup := by
      rwa [List.map_snd_zip (le_of_eq sameLength.symm)]
    rw [whole, List.map_append, List.map_cons] at names
    have other : entry.2 ≠ entry'.2 := fun same =>
      List.disjoint_of_nodup_append names (List.mem_map_of_mem earlier) (same ▸ List.mem_cons_self)
    rw [if_neg other]
    exact written entry' earlier
  · obtain rfl := List.mem_singleton.mp new
    exact if_pos rfl

variable {peers : RegisteredPeers K} {heap : Objects K} {conn_cube : CubeDict D}

theorem getDimDirectly_found (known : d ∈ space.all_dimensions_list)
    (found : Dict.get conn_cube d = some value) : getDimDirectly space conn_cube d = .ok value := by
  unfold getDimDirectly
  rw [assert_bind known, found]
  rfl

/-- Whole or not, a value of a dimension of peers is decoded as it is. -/
theorem getDim_peers (known : d ∈ space.all_dimensions_list) (found : Dict.get conn_cube d = some value)
    (isPeers : IsPeers d) : getDim space peers heap conn_cube d = getPeers peers heap value := by
  unfold getDim
  rw [getDimDirectly_found known found, ok_bind, if_pos isPeers, getDomain_eq known]
  show (if value ≠ space.domain d then _ else _) = _
  by_cases whole : value = space.domain d
  · rw [if_neg (not_not.mpr whole), whole]
  · rw [if_pos whole]

theorem getDim_ports (known : d ∈ space.all_dimensions_list) {s : CanonicalIntervalSet}
    (found : Dict.get conn_cube d = some (.intervals s)) (others : ¬ IsPeers d) (isPorts : IsPorts d)
    (canonical : s.Canonical) :
    Returns (getDim space peers heap conn_cube d) fun r => r.2 = heap ∧
      ∃ port_set, r.1 = .portSet port_set ∧ port_set.Canonical ∧ ∀ n, n ∈ port_set ↔ n ∈ s := by
  unfold getDim
  rw [getDimDirectly_found known found, ok_bind, if_neg others, if_pos isPorts]
  apply returns_bind (CanonicalIntervalSet.or_spec CanonicalIntervalSet.canonical_empty canonical)
  intro port_set ⟨canonical', members⟩
  refine returns_pure ⟨rfl, port_set, rfl, canonical', fun n => ?_⟩
  rw [members, or_iff_right CanonicalIntervalSet.not_mem_empty]

theorem getDim_plain (known : d ∈ space.all_dimensions_list) (found : Dict.get conn_cube d = some value)
    (others : ¬ IsPeers d) (numbers : ¬ IsPorts d) :
    getDim space peers heap conn_cube d = .ok (.plain value, heap) := by
  unfold getDim
  rw [getDimDirectly_found known found, ok_bind, if_neg others, if_neg numbers]
  rfl

section Unite

variable {e f : LayerElem (DfaElem D)} {t : DimensionType}

omit [DecidableEq K] in
theorem emptyView : heap.viewOf [] = ⟨∅, ∅⟩ := by
  apply PeersView.ext
  · exact Set.eq_empty_of_forall_notMem fun _ => List.not_mem_nil
  · exact Set.eq_empty_of_forall_notMem fun a ⟨_, _, no, _⟩ => nomatch no

theorem unite_plain (left : LayerElem.Shaped t e) (right : LayerElem.Shaped t f) :
    Returns ((DimensionValues.plain e).unite heap (.plain f)) fun r => r.2 = heap ∧
      ∃ g, r.1 = .plain g ∧ LayerElem.Shaped t g ∧ ∀ x, x ∈ g ↔ x ∈ e ∨ x ∈ f := by
  show Returns (if f.bool = true then (if e.bool = true then _ else _) else _) _
  apply returns_ite
  · intro _
    apply returns_ite
    · intro _
      apply returns_bind (LayerElem.or_spec left right)
      intro g ⟨shaped, members⟩
      exact returns_pure ⟨rfl, g, rfl, shaped, members⟩
    · intro empty
      have none := (LayerElem.bool_eq_false left).mp (Bool.eq_false_iff.mpr empty)
      exact returns_pure ⟨rfl, f, rfl, right, fun x => (or_iff_right (none x)).symm⟩
  · intro empty
    have none := (LayerElem.bool_eq_false right).mp (Bool.eq_false_iff.mpr empty)
    exact returns_pure ⟨rfl, e, rfl, left, fun x => (or_iff_left (none x)).symm⟩

theorem unite_ports {s u : CanonicalIntervalSet} (left : s.Canonical) (right : u.Canonical) :
    Returns ((DimensionValues.portSet s : DimensionValues D).unite heap (.portSet u)) fun r => r.2 = heap ∧
      ∃ v, r.1 = .portSet v ∧ v.Canonical ∧ ∀ n, n ∈ v ↔ n ∈ s ∨ n ∈ u := by
  have none : ∀ {w : CanonicalIntervalSet}, w.Canonical → ¬ w.bool = true → ∀ n, n ∉ w := by
    intro w canonical empty n inside
    exact empty ((CanonicalIntervalSet.bool_iff canonical).mpr ⟨n, inside⟩)
  show Returns (if u.bool = true then (if s.bool = true then _ else _) else _) _
  apply returns_ite
  · intro _
    apply returns_ite
    · intro _
      apply returns_bind (CanonicalIntervalSet.or_spec left right)
      intro v ⟨canonical, members⟩
      exact returns_pure ⟨rfl, v, rfl, canonical, members⟩
    · intro empty
      exact returns_pure ⟨rfl, u, rfl, right, fun n => (or_iff_right (none left empty n)).symm⟩
  · intro empty
    exact returns_pure ⟨rfl, s, rfl, left, fun n => (or_iff_left (none right empty n)).symm⟩

omit [DecidableEq K] in
theorem bool_peerSet {ref : Nat} {xs : List (PeerRef K)} (found : heap.sets[ref]? = some xs) :
    (DimensionValues.peerSet ref : DimensionValues D).bool heap = .ok (!xs.isEmpty) := by
  show (item heap.sets ref >>= fun peers => pure (!peers.isEmpty)) = _
  rw [item_found found]
  rfl

theorem unite_peers {S T : PeersView K} {res values : Nat} (valid : heap.Valid)
    (left : heap.Covers res S) (right : heap.Covers values T) :
    Returns ((DimensionValues.peerSet res : DimensionValues D).unite heap (.peerSet values)) fun r =>
      r.2.Valid ∧ ∃ ref, r.1 = .peerSet ref ∧ r.2.Covers ref (S ∪ T) := by
  obtain ⟨xs, found, rfl⟩ := left
  obtain ⟨ys, found', rfl⟩ := right
  unfold DimensionValues.unite
  rw [bool_peerSet found', ok_bind]
  apply returns_ite
  · intro _
    rw [bool_peerSet found, ok_bind]
    apply returns_ite
    · intro _
      apply returns_bind (PeerSetRef.ior_spec valid ⟨xs, found, rfl⟩ ⟨ys, found', rfl⟩)
      intro ⟨ref, heap'⟩ ⟨valid', _, _, _, covers⟩
      exact returns_pure ⟨valid', ref, rfl, covers⟩
    · intro empty
      obtain rfl : xs = [] := by simpa using empty
      refine returns_pure ⟨valid, values, rfl, ys, found', ?_⟩
      rw [emptyView]
      exact PeersView.ext (Set.empty_union _).symm (Set.empty_union _).symm
  · intro empty
    obtain rfl : ys = [] := by simpa using empty
    refine returns_pure ⟨valid, res, rfl, xs, found, ?_⟩
    rw [emptyView]
    exact PeersView.ext (Set.union_empty _).symm (Set.union_empty _).symm

end Unite

section Loop

variable {t : DimensionType} {cubes : List (List (LayerElem (DfaElem D)))}

/-- A cube of values of these dimensions, all of them known. -/
structure GoodCube (space : Space (DfaElem D)) (ds : List String) (cube : List (LayerElem (DfaElem D))) : Prop where
  known : ds ⊆ space.all_dimensions_list
  nodup : ds.Nodup
  keys : List.Forall₂ (fun value d => Key space d value) cube ds

omit [MinDFA D] in
/-- A cube has one value in a dimension. -/
theorem zip_unique (nodup : ds.Nodup) {value' : LayerElem (DfaElem D)} (left : (value, d) ∈ cube.zip ds)
    (right : (value', d) ∈ cube.zip ds) : value = value' := by
  induction cube generalizing ds with
  | nil => cases left
  | cons first cube ih =>
    cases ds with
    | nil => cases left
    | cons d' ds =>
      obtain ⟨fresh, others⟩ := List.nodup_cons.mp nodup
      rcases List.mem_cons.mp left with same | left
      · obtain ⟨rfl, rfl⟩ := Prod.mk.inj same
        rcases List.mem_cons.mp right with same | right
        · exact (Prod.mk.inj same).1.symm
        · exact (fresh (List.of_mem_zip right).2).elim
      · rcases List.mem_cons.mp right with same | right
        · rw [(Prod.mk.inj same).2] at left
          exact (fresh (List.of_mem_zip left).2).elim
        · exact ih others left right

/-- A turn of the loop reads the value of the cube in the dimension. -/
theorem addCubeValues_eq (peers : RegisteredPeers K) (good : GoodCube space ds cube) (member : d ∈ ds)
    (acc : DimensionValues D × Objects K) :
    ∃ conn_cube value, (value, d) ∈ cube.zip ds ∧ Key space d value ∧ Dict.get conn_cube d = some value ∧
      addCubeValues space peers ds d acc cube =
        (getDim space peers acc.2 conn_cube d >>= fun r => acc.1.unite r.2 r.1) := by
  obtain ⟨value, listed, key⟩ := zip_at good.keys member
  obtain ⟨conn_cube, made, written⟩ := getConnectivityCube_spec good.known good.nodup good.keys.length_eq
  refine ⟨conn_cube, value, listed, key, written _ listed, ?_⟩
  unfold addCubeValues
  rw [made]
  rfl

/-- The value occurs in the dimension in one of the cubes. -/
def ReadFrom (ds : List String) (d : String) (cubes : List (List (LayerElem (DfaElem D)))) (x : Item) : Prop :=
  ∃ cube ∈ cubes, ∃ value, (value, d) ∈ cube.zip ds ∧ x ∈ value

theorem readFrom_append (nodup : ds.Nodup) (listed : (value, d) ∈ cube.zip ds) {x : Item} :
    ReadFrom ds d (cubes ++ [cube]) x ↔ ReadFrom ds d cubes x ∨ x ∈ value := by
  unfold ReadFrom
  simp only [List.mem_append, List.mem_singleton, or_and_right, exists_or, exists_eq_left]
  apply or_congr_right
  constructor
  · intro ⟨value', listed', inside⟩
    rwa [zip_unique nodup listed listed']
  · exact fun inside => ⟨value, listed, inside⟩

/-- The result is a value with these items. -/
def IsPlain (heap : Objects K) (t : DimensionType) (A : Set Item) (r : DimensionValues D × Objects K) : Prop :=
  r.2 = heap ∧ ∃ g, r.1 = .plain g ∧ LayerElem.Shaped t g ∧ ∀ x, x ∈ g ↔ x ∈ A

/-- The result is a port set with these ports. -/
def IsPortSet (heap : Objects K) (A : Set Item) (r : DimensionValues D × Objects K) : Prop :=
  r.2 = heap ∧ ∃ s, r.1 = .portSet s ∧ s.Canonical ∧ ∀ n, n ∈ s ↔ .int n ∈ A

/-- The loop unites the values of all cubes to the first one. -/
theorem loop_plain (good : ∀ cube ∈ cubes, GoodCube space ds cube) (member : d ∈ ds)
    (others : ¬ IsPeers d) (numbers : ¬ IsPorts d) {e : LayerElem (DfaElem D)}
    (shaped : LayerElem.Shaped (space.domain d).type e) :
    Returns (cubes.foldlM (addCubeValues space peers ds d) (.plain e, heap))
      (IsPlain heap (space.domain d).type {x | x ∈ e ∨ ReadFrom ds d cubes x}) := by
  apply returns_foldlM (fun before => IsPlain heap (space.domain d).type {x | x ∈ e ∨ ReadFrom ds d before x})
  · exact ⟨rfl, e, rfl, shaped, fun x => by simp [ReadFrom]⟩
  · intro before cube after ⟨res, heap'⟩ whole ⟨same, g, here, shaped', members⟩
    obtain rfl : heap' = heap := same
    obtain rfl : res = .plain g := here
    have good := good cube (whole ▸ List.mem_append_right before List.mem_cons_self)
    obtain ⟨conn_cube, value, listed, key, found, turn⟩ :=
      addCubeValues_eq peers good member (.plain g, heap')
    rw [turn, getDim_plain (good.known member) found others numbers]
    apply returns_mono (unite_plain shaped' key.shaped)
    intro r ⟨same, g', here, shaped'', members'⟩
    refine ⟨same, g', here, shaped'', fun x => ?_⟩
    rw [members', members]
    show (_ ∨ _) ∨ _ ↔ _ ∨ _
    rw [readFrom_append good.nodup listed, or_assoc]

theorem loop_ports (good : ∀ cube ∈ cubes, GoodCube space ds cube) (member : d ∈ ds)
    (others : ¬ IsPeers d) (numbers : IsPorts d) (typed : (space.domain d).type = .IntervalSet) :
    Returns (cubes.foldlM (addCubeValues space peers ds d) (.portSet {}, heap))
      (IsPortSet heap {x | ReadFrom ds d cubes x}) := by
  apply returns_foldlM (fun before => IsPortSet heap {x | ReadFrom ds d before x})
  · refine ⟨rfl, {}, rfl, CanonicalIntervalSet.canonical_empty, fun n => ?_⟩
    exact iff_of_false CanonicalIntervalSet.not_mem_empty (by simp [ReadFrom])
  · intro before cube after ⟨res, heap'⟩ whole ⟨same, s, here, canonical, members⟩
    obtain rfl : heap' = heap := same
    obtain rfl : res = .portSet s := here
    have good := good cube (whole ▸ List.mem_append_right before List.mem_cons_self)
    obtain ⟨conn_cube, value, listed, key, found, turn⟩ :=
      addCubeValues_eq peers good member (.portSet s, heap')
    cases value with
    | dfa l => cases key.shaped.type.trans typed
    | intervals u =>
      rw [turn]
      apply returns_bind (getDim_ports (good.known member) found others numbers key.shaped.canonical)
      intro ⟨values, heap''⟩ ⟨same, v, here, canonical', members'⟩
      obtain rfl : heap'' = heap' := same
      obtain rfl : values = .portSet v := here
      apply returns_mono (unite_ports canonical canonical')
      intro r ⟨same, w, here, canonical'', members''⟩
      refine ⟨same, w, here, canonical'', fun n => ?_⟩
      rw [members'', members, members']
      exact (readFrom_append good.nodup listed).symm

/-- The interval occurs in the dimension in one of the cubes. -/
def IntervalFrom (ds : List String) (d : String) (cubes : List (List (LayerElem (DfaElem D)))) (i : Interval) :
    Prop :=
  ∃ cube ∈ cubes, ∃ s, (.intervals s, d) ∈ cube.zip ds ∧ i ∈ s.interval_set

omit [MinDFA D] in
theorem intervalFrom_append (nodup : ds.Nodup) {s : CanonicalIntervalSet}
    (listed : (.intervals s, d) ∈ cube.zip ds) {i : Interval} :
    IntervalFrom ds d (cubes ++ [cube]) i ↔ IntervalFrom ds d cubes i ∨ i ∈ s.interval_set := by
  unfold IntervalFrom
  simp only [List.mem_append, List.mem_singleton, or_and_right, exists_or, exists_eq_left]
  apply or_congr_right
  constructor
  · intro ⟨s', listed', inside⟩
    obtain rfl := LayerElem.intervals.inj (zip_unique nodup listed listed')
    exact inside
  · exact fun inside => ⟨s, listed, inside⟩

omit [DecidableEq K] in
theorem reachedView_append (peers : RegisteredPeers K) (xs ys : List Interval) :
    peers.reachedView ⟨xs ++ ys⟩ = peers.reachedView ⟨xs⟩ ∪ peers.reachedView ⟨ys⟩ := by
  apply PeersView.ext
  · ext k
    show (∃ j, _ ∧ ∃ i ∈ xs ++ ys, _) ↔ (∃ j, _ ∧ ∃ i ∈ xs, _) ∨ ∃ j, _ ∧ ∃ i ∈ ys, _
    simp only [List.mem_append, or_and_right, exists_or, and_or_left]
  · ext a
    show (∃ i ∈ xs ++ ys, _) ↔ (∃ i ∈ xs, _) ∨ ∃ i ∈ ys, _
    simp only [List.mem_append, or_and_right, exists_or]

/-- The result is a peer set that stands for these peers. -/
def IsPeerSet (S : PeersView K) (r : DimensionValues D × Objects K) : Prop :=
  r.2.Valid ∧ ∃ peer_set, r.1 = .peerSet peer_set ∧ r.2.Covers peer_set S

omit [MinDFA D] in
theorem getPeers_spec (valid : heap.Valid) {I : CanonicalIntervalSet} (canonical : I.Canonical)
    (ranges : ∀ i ∈ I.interval_set, RegisteredPeers.InOneRange i)
    (some : ∀ i ∈ I.interval_set, min_pod_index ≤ i.start → 0 < peers.ordered_peer_list.length) :
    Returns (getPeers peers heap (.intervals I : LayerElem (DfaElem D))) fun r =>
      heap.Extends r.2 ∧ IsPeerSet (peers.reachedView I) r := by
  apply returns_bind (RegisteredPeers.getPeerSetByIndices_spec valid canonical ranges some)
  intro ⟨peer_set, heap'⟩ made
  exact returns_pure ⟨made.unchanged, made.valid, peer_set, rfl, made.covers⟩

omit [MinDFA D] in
/-- A value that is decoded has peers for its intervals of other peers. -/
theorem getPeers_some {I : CanonicalIntervalSet} (canonical : I.Canonical) {r : DimensionValues D × Objects K}
    (run : getPeers peers heap (.intervals I : LayerElem (DfaElem D)) = .ok r) :
    ∀ i ∈ I.interval_set, min_pod_index ≤ i.start → 0 < peers.ordered_peer_list.length := by
  obtain ⟨s, read, run⟩ := bind_ok.mp run
  obtain rfl : I = s := Except.ok.inj read
  obtain ⟨_, decoded, _⟩ := bind_ok.mp run
  obtain ⟨acc, decoded, _⟩ := bind_ok.mp decoded
  exact RegisteredPeers.decode_some canonical.proper decoded

/-- The dimension is one of peers, whose values reach over no gap. -/
structure PeersDim (space : Space (DfaElem D)) (d : String) : Prop where
  isPeers : IsPeers d
  intervals : ∀ value, Key space d value → ∃ s, value = .intervals s ∧ s.Canonical ∧
    ∀ i ∈ s.interval_set, RegisteredPeers.InOneRange i

theorem loop_peers (dim : PeersDim space d) (good : ∀ cube ∈ cubes, GoodCube space ds cube) (member : d ∈ ds)
    (valid : heap.Valid) {res : Nat} (start : heap.Covers res (peers.reachedView ⟨[]⟩))
    (some : ∀ i, IntervalFrom ds d cubes i → min_pod_index ≤ i.start → 0 < peers.ordered_peer_list.length) :
    Returns (cubes.foldlM (addCubeValues space peers ds d) (.peerSet res, heap)) fun r =>
      ∃ xs, (∀ i, i ∈ xs ↔ IntervalFrom ds d cubes i) ∧ IsPeerSet (peers.reachedView ⟨xs⟩) r := by
  apply returns_foldlM (fun before (r : DimensionValues D × Objects K) => ∃ xs,
    (∀ i, i ∈ xs ↔ IntervalFrom ds d before i) ∧ IsPeerSet (peers.reachedView ⟨xs⟩) r)
  · exact ⟨[], fun i => by simp [IntervalFrom], valid, res, rfl, start⟩
  · intro before cube after ⟨acc, heap'⟩ whole ⟨xs, members, valid', ref, here, covers⟩
    obtain rfl : acc = .peerSet ref := here
    have listedCube : cube ∈ cubes := whole ▸ List.mem_append_right before List.mem_cons_self
    have good := good cube listedCube
    obtain ⟨conn_cube, value, listed, key, found, turn⟩ :=
      addCubeValues_eq peers good member (.peerSet ref, heap')
    obtain ⟨s, rfl, canonical, ranges⟩ := dim.intervals value key
    rw [turn, getDim_peers (good.known member) found dim.isPeers]
    apply returns_bind (getPeers_spec valid' canonical ranges
      fun i inside => some i ⟨cube, listedCube, s, listed, inside⟩)
    intro ⟨values, heap''⟩ ⟨unchanged, valid'', ref', here, covers'⟩
    obtain rfl : values = .peerSet ref' := here
    apply returns_mono (unite_peers valid'' (Objects.covers_mono valid' unchanged covers) covers')
    intro r ⟨valid, ref'', here, covers''⟩
    refine ⟨xs ++ s.interval_set, fun i => ?_, valid, ref'', here, ?_⟩
    · rw [List.mem_append, members, intervalFrom_append good.nodup listed]
    · rwa [reachedView_append]

/-- A loop over cubes that ends has read peers for all intervals of other peers. -/
theorem loop_some (dim : PeersDim space d) (good : ∀ cube ∈ cubes, GoodCube space ds cube) (member : d ∈ ds)
    {start r : DimensionValues D × Objects K}
    (run : cubes.foldlM (addCubeValues space peers ds d) start = .ok r) {i : Interval}
    (occurs : IntervalFrom ds d cubes i) (pod : min_pod_index ≤ i.start) :
    0 < peers.ordered_peer_list.length := by
  have each : ∀ cube ∈ cubes, GoodCube space ds cube → ∀ s, (.intervals s, d) ∈ cube.zip ds →
      ∀ i ∈ s.interval_set, min_pod_index ≤ i.start → 0 < peers.ordered_peer_list.length := by
    apply foldlM_ok (fun (before : List (List (LayerElem (DfaElem D)))) _ => ∀ cube ∈ before,
      GoodCube space ds cube → ∀ s, (.intervals s, d) ∈ cube.zip ds → ∀ i ∈ s.interval_set,
        min_pod_index ≤ i.start → 0 < peers.ordered_peer_list.length) (List.forall_mem_nil _) _ run
    intro before cube acc next all turned
    apply List.forall_mem_append.mpr ⟨all, List.forall_mem_singleton.mpr _⟩
    intro good s listed
    obtain ⟨conn_cube, value, listed', key, found, turn⟩ := addCubeValues_eq peers good member acc
    obtain ⟨s', rfl, canonical, _⟩ := dim.intervals value key
    obtain rfl := LayerElem.intervals.inj (zip_unique good.nodup listed listed')
    rw [turn, getDim_peers (good.known member) found dim.isPeers] at turned
    obtain ⟨_, decoded, _⟩ := bind_ok.mp turned
    exact getPeers_some canonical decoded
  obtain ⟨cube, listedCube, s, listed, inside⟩ := occurs
  exact each cube listedCube (good cube listedCube) s listed i inside pod

end Loop

/-- The peers and addresses whose index is among the values. -/
def RegisteredPeers.viewOfItems (peers : RegisteredPeers K) (V : Set Item) : PeersView K :=
  ⟨{k | ∃ j : Nat, peers.ordered_peer_list[j]? = some k ∧ .int (min_pod_index + j) ∈ V},
    {a | .int a.index ∈ V}⟩

/-- The result stands for exactly these values of the dimension. -/
def Denotes (peers : RegisteredPeers K) (V : Set Item) (r : DimensionValues D × Objects K) : Prop :=
  match r.1 with
  | .peerSet peer_set => r.2.Covers peer_set (peers.viewOfItems V)
  | .portSet port_set => ∀ x, x ∈ (.intervals port_set : LayerElem (DfaElem D)) ↔ x ∈ V
  | .plain value => ∀ x, x ∈ value ↔ x ∈ V

/-- The interval is one of a value of the set in the dimension. -/
def TakesInterval (space : Space (DfaElem D)) (self : CanonicalHyperCubeSet (DfaElem D)) (d : String)
    (i : Interval) : Prop :=
  ∃ s, Takes space self d (.intervals s) ∧ i ∈ s.interval_set

/-- In dimensions of peers, an interval of other peers starts at a registered one, or the last registered
peer is among the values; in dimensions of words that are active, the empty word is a value. -/
structure ProjectsExactly (peers : RegisteredPeers K) (space : Space (DfaElem D))
    (self : CanonicalHyperCubeSet (DfaElem D)) (d : String) : Prop where
  starts : IsPeers d → ∀ i, TakesInterval space self d i → min_pod_index ≤ i.start →
    i.start < min_pod_index + peers.ordered_peer_list.length ∨
      (0 < peers.ordered_peer_list.length ∧
        .int (min_pod_index + ((peers.ordered_peer_list.length : Int) - 1)) ∈ projection space self d)
  words : IsWords d → d ∈ self.active_dimensions → .str "" ∈ projection space self d

section Exact

theorem takes_key (wellLayered : WellLayered space self) (known : d ∈ space.all_dimensions_list)
    (takes : Takes space self d value) : Key space d value := by
  unfold Takes at takes
  by_cases active : d ∈ self.active_dimensions
  · rw [if_pos active] at takes
    obtain ⟨cube, isCube, listed⟩ := takes
    have keys := isCube_keys (wellLayered.layered (List.ne_nil_of_mem active)) isCube
    obtain ⟨value', listed', key⟩ := zip_at keys active
    rwa [zip_unique (space.nodup.sublist wellLayered.ordered) listed listed']
  · rw [if_neg active] at takes
    rw [takes]
    exact domain_key known

/-- The cubes of a well-formed set. -/
theorem iter_good (wellLayered : WellLayered space self) (active : d ∈ self.active_dimensions) :
    Returns (iter space self) fun cubes =>
      (∀ cube ∈ cubes, GoodCube space self.active_dimensions cube) ∧
      (∀ value, (∃ cube ∈ cubes, (value, d) ∈ cube.zip self.active_dimensions) ↔ Takes space self d value) := by
  have some := List.ne_nil_of_mem active
  apply returns_mono (iter_active wellLayered some)
  intro cubes members
  constructor
  · intro cube listed
    exact ⟨wellLayered.ordered.subset, space.nodup.sublist wellLayered.ordered,
      isCube_keys (wellLayered.layered some) ((members cube).mp listed)⟩
  · intro value
    unfold Takes
    rw [if_pos active]
    exact exists_congr fun cube => and_congr_left' (members cube)

theorem readFrom_iff {cubes : List (List (LayerElem (DfaElem D)))} {x : Item}
    (values : ∀ value, (∃ cube ∈ cubes, (value, d) ∈ cube.zip ds) ↔ Takes space self d value) :
    ReadFrom ds d cubes x ↔ ∃ value, Takes space self d value ∧ x ∈ value := by
  constructor
  · intro ⟨cube, listed, value, taken, inside⟩
    exact ⟨value, (values value).mp ⟨cube, listed, taken⟩, inside⟩
  · intro ⟨value, takes, inside⟩
    obtain ⟨cube, listed, taken⟩ := (values value).mpr takes
    exact ⟨cube, listed, value, taken, inside⟩

theorem intervalFrom_iff {cubes : List (List (LayerElem (DfaElem D)))} {i : Interval}
    (values : ∀ value, (∃ cube ∈ cubes, (value, d) ∈ cube.zip ds) ↔ Takes space self d value) :
    IntervalFrom ds d cubes i ↔ TakesInterval space self d i := by
  constructor
  · intro ⟨cube, listed, s, taken, inside⟩
    exact ⟨s, (values _).mp ⟨cube, listed, taken⟩, inside⟩
  · intro ⟨s, takes, inside⟩
    obtain ⟨cube, listed, taken⟩ := (values _).mpr takes
    exact ⟨cube, listed, s, taken, inside⟩

theorem emptyProjection_peers (isPeers : IsPeers d) : emptyProjection space heap d =
    .ok (.peerSet (heap.newPeerSet []).1, (heap.newPeerSet []).2) := by
  unfold emptyProjection
  rw [if_pos isPeers]
  rfl

/-- Projecting on a dimension of peers reads the peers for all intervals. -/
theorem project_peers (dim : PeersDim space d) (wellLayered : WellLayered space self) (valid : heap.Valid)
    (known : d ∈ space.all_dimensions_list) (supported : d ∉ ["icmp_type", "icmp_code"]) :
    ((∀ i, TakesInterval space self d i → min_pod_index ≤ i.start → 0 < peers.ordered_peer_list.length) →
      Returns (projectOnOneDimension space peers heap self d) fun r =>
        ∃ xs, (∀ i, i ∈ xs ↔ TakesInterval space self d i) ∧ IsPeerSet (peers.reachedView ⟨xs⟩) r) ∧
    ∀ r, projectOnOneDimension space peers heap self d = .ok r →
      ∀ i, TakesInterval space self d i → min_pod_index ≤ i.start → 0 < peers.ordered_peer_list.length := by
  unfold projectOnOneDimension
  rw [assert_bind supported]
  by_cases active : d ∈ self.active_dimensions
  · rw [if_neg (not_not.mpr active)]
    obtain ⟨cubes, iterated, good, values⟩ := iter_good wellLayered active
    have made : Objects.Made heap (heap.viewOf []) (heap.newPeerSet []) := Objects.made_newPeerSet valid nofun
    have none : heap.viewOf [] = peers.reachedView ⟨[]⟩ := by
      rw [emptyView]
      apply PeersView.ext
      · simp [RegisteredPeers.reachedView]
      · exact (Set.eq_empty_of_forall_notMem fun _ => CanonicalIntervalSet.not_mem_empty).symm
    have covers := made.covers
    rw [none] at covers
    rw [emptyProjection_peers dim.isPeers, ok_bind, iterated, ok_bind]
    have taken : ∀ i, IntervalFrom self.active_dimensions d cubes i ↔ TakesInterval space self d i :=
      fun i => intervalFrom_iff values
    constructor
    · intro some
      apply returns_mono (loop_peers dim good active made.valid covers fun i occurs => some i ((taken i).mp occurs))
      exact fun r ⟨xs, members, peerSet⟩ => ⟨xs, fun i => (members i).trans (taken i), peerSet⟩
    · intro r run i takes pod
      exact loop_some dim good active run ((taken i).mpr takes) pod
  · rw [if_pos active, getDomain_eq known, ok_bind, if_pos dim.isPeers]
    obtain ⟨s, same, canonical, ranges⟩ := dim.intervals _ (domain_key known)
    have taken : ∀ i, TakesInterval space self d i ↔ i ∈ s.interval_set := by
      intro i
      unfold TakesInterval Takes
      simp only [if_neg active, same]
      constructor
      · intro ⟨s', here, inside⟩
        rwa [← LayerElem.intervals.inj here]
      · exact fun inside => ⟨s, rfl, inside⟩
    rw [same]
    constructor
    · intro some
      apply returns_mono (getPeers_spec valid canonical ranges fun i inside => some i ((taken i).mpr inside))
      exact fun r ⟨_, peerSet⟩ => ⟨s.interval_set, fun i => (taken i).symm, peerSet⟩
    · intro r run i takes
      exact getPeers_some canonical run i ((taken i).mp takes)

omit [DecidableEq K] in
/-- What the intervals of a set of values stand for is what the values stand for. -/
theorem viewAt_items {xs : List Interval} {V : Set Item} (members : ∀ n, .int n ∈ V ↔ ∃ i ∈ xs, n ∈ i) :
    peers.viewAt ⟨xs⟩ = peers.viewOfItems V := by
  apply PeersView.ext
  · ext k
    exact exists_congr fun j => and_congr_right fun _ => (members _).symm
  · ext a
    exact (members _).symm

theorem project_peers_exact (dim : PeersDim space d) (wellLayered : WellLayered space self)
    (some : ∃ p, Point space p ∧ Has self p) (nodup : peers.ordered_peer_list.Nodup) (valid : heap.Valid)
    (known : d ∈ space.all_dimensions_list) (supported : d ∉ ["icmp_type", "icmp_code"]) :
    Returns (projectOnOneDimension space peers heap self d) (Denotes peers (projection space self d)) ↔
      ∀ i, TakesInterval space self d i → min_pod_index ≤ i.start →
        i.start < min_pod_index + peers.ordered_peer_list.length ∨
          (0 < peers.ordered_peer_list.length ∧
            .int (min_pod_index + ((peers.ordered_peer_list.length : Int) - 1)) ∈ projection space self d) := by
  have taken : ∀ n, .int n ∈ projection space self d ↔ ∃ i, TakesInterval space self d i ∧ n ∈ i := by
    intro n
    rw [mem_projection wellLayered some known]
    constructor
    · intro ⟨value, takes, inside⟩
      obtain ⟨s, rfl, _⟩ := dim.intervals value (takes_key wellLayered known takes)
      obtain ⟨i, listed, inside⟩ := inside
      exact ⟨i, ⟨s, takes, listed⟩, inside⟩
    · intro ⟨i, ⟨s, takes, listed⟩, inside⟩
      exact ⟨_, takes, i, listed, inside⟩
  have each : ∀ i, TakesInterval space self d i → i.Proper ∧ RegisteredPeers.InOneRange i := by
    intro i ⟨s, takes, listed⟩
    obtain ⟨s', same, canonical, ranges⟩ := dim.intervals _ (takes_key wellLayered known takes)
    obtain rfl := LayerElem.intervals.inj same
    exact ⟨canonical.proper i listed, ranges i listed⟩
  have both : (_ → Returns (projectOnOneDimension space peers heap self d) _) ∧ _ :=
    project_peers dim wellLayered valid known supported
  obtain ⟨runs, reads⟩ := both
  -- where every interval of other peers has a peer, the result is right just if it starts right
  have settled : (∀ i, TakesInterval space self d i → min_pod_index ≤ i.start →
      0 < peers.ordered_peer_list.length) → ∃ r xs, projectOnOneDimension space peers heap self d = .ok r ∧
        (∀ i, i ∈ xs ↔ TakesInterval space self d i) ∧
        (Denotes peers (projection space self d) r ↔ peers.StartsRegistered ⟨xs⟩) := by
    intro some
    obtain ⟨r, run, xs, members, _, peer_set, here, covers⟩ := runs some
    refine ⟨r, xs, run, members, ?_⟩
    have same : peers.viewAt ⟨xs⟩ = peers.viewOfItems (projection space self d) := by
      apply viewAt_items
      intro n
      simp only [taken, members]
    have reached : peers.reachedView ⟨xs⟩ = peers.viewAt ⟨xs⟩ ↔ _ := RegisteredPeers.reachedView_eq nodup
      (fun i listed => (each i ((members i).mp listed)).1)
      (fun i listed => (each i ((members i).mp listed)).2) fun i listed => some i ((members i).mp listed)
    rw [← reached, same]
    unfold Denotes
    rw [here]
    constructor
    · exact RegisteredPeers.covers_unique covers
    · intro whole
      rwa [← whole]
  have last : ∀ {xs : List Interval}, (∀ i, i ∈ xs ↔ TakesInterval space self d i) → ∀ n,
      n ∈ (⟨xs⟩ : CanonicalIntervalSet) ↔ .int n ∈ projection space self d := by
    intro xs members n
    rw [taken]
    exact exists_congr fun i => and_congr_left' (members i)
  constructor
  · intro ⟨r, run, denotes⟩
    obtain ⟨r', xs, run', members, right⟩ := settled (reads r run)
    obtain rfl : r = r' := Except.ok.inj (run.symm.trans run')
    intro i takes pod
    have starts := right.mp denotes i ((members i).mpr takes) pod
    rwa [last members] at starts
  · intro starts
    have some : ∀ i, TakesInterval space self d i → min_pod_index ≤ i.start →
        0 < peers.ordered_peer_list.length := by
      intro i takes pod
      rcases starts i takes pod with start | ⟨positive, _⟩
      · omega
      · exact positive
    obtain ⟨r, xs, run, members, right⟩ := settled some
    refine ⟨r, run, right.mpr ?_⟩
    intro i listed pod
    rw [last members]
    exact starts i ((members i).mp listed) pod

theorem project_inactive (others : ¬ IsPeers d) (inactive : d ∉ self.active_dimensions)
    (known : d ∈ space.all_dimensions_list) (supported : d ∉ ["icmp_type", "icmp_code"]) :
    projectOnOneDimension space peers heap self d = .ok (.plain (space.domain d), heap) := by
  unfold projectOnOneDimension
  rw [assert_bind supported, if_pos inactive, getDomain_eq known, ok_bind, if_neg others]
  rfl

theorem project_ports (others : ¬ IsPeers d) (numbers : IsPorts d) (active : d ∈ self.active_dimensions)
    (wellLayered : WellLayered space self) (some : ∃ p, Point space p ∧ Has self p)
    (known : d ∈ space.all_dimensions_list) (supported : d ∉ ["icmp_type", "icmp_code"])
    (typed : (space.domain d).type = .IntervalSet) :
    Returns (projectOnOneDimension space peers heap self d) (IsPortSet heap (projection space self d)) := by
  obtain ⟨cubes, iterated, good, values⟩ := iter_good wellLayered active
  unfold projectOnOneDimension
  rw [assert_bind supported, if_neg (not_not.mpr active)]
  unfold emptyProjection
  rw [if_neg others, if_pos numbers, iterated]
  have read : {x | ReadFrom self.active_dimensions d cubes x} = projection space self d := by
    ext x
    exact (readFrom_iff values).trans (mem_projection wellLayered some known).symm
  rw [← read]
  exact loop_ports good active others numbers typed

/-- In every other dimension the values are added to the empty value, which may have a word. -/
theorem project_plain (others : ¬ IsPeers d) (numbers : ¬ IsPorts d) (active : d ∈ self.active_dimensions)
    (wellLayered : WellLayered space self) (some : ∃ p, Point space p ∧ Has self p)
    (known : d ∈ space.all_dimensions_list) (supported : d ∉ ["icmp_type", "icmp_code"])
    {e : LayerElem (DfaElem D)} (empty : getEmptyDimensionByName D space.manager d = .ok e)
    (shaped : LayerElem.Shaped (space.domain d).type e) :
    Returns (projectOnOneDimension space peers heap self d)
      (IsPlain heap (space.domain d).type {x | x ∈ e ∨ x ∈ projection space self d}) := by
  obtain ⟨cubes, iterated, good, values⟩ := iter_good wellLayered active
  unfold projectOnOneDimension
  rw [assert_bind supported, if_neg (not_not.mpr active)]
  unfold emptyProjection
  rw [if_neg others, if_neg numbers, empty, iterated]
  have read : {x | x ∈ e ∨ ReadFrom self.active_dimensions d cubes x} =
      {x | x ∈ e ∨ x ∈ projection space self d} := by
    ext x
    exact or_congr_right ((readFrom_iff values).trans (mem_projection wellLayered some known).symm)
  rw [← read]
  exact loop_plain good active others numbers shaped

end Exact

section Claim

variable {space : ConnectivitySpace D} {self : CanonicalHyperCubeSet (DfaElem D)} {d : String}
  {peers : RegisteredPeers K} {heap : Objects K}

theorem emptyDimension (known : d ∈ allDimensionsList) :
    ∃ e, getEmptyDimensionByName D space.toSpace.manager d = .ok e ∧
      LayerElem.Shaped (space.toSpace.domain d).type e ∧ ∀ x, x ∈ e ↔ IsWords d ∧ x = .str "" := by
  have listed : d ∈ space.toSpace.all_dimensions_list := space.dims.mem_iff.mpr known
  unfold getEmptyDimensionByName
  rw [getType_eq listed, ok_bind]
  by_cases words : IsWords d
  · rw [ConnectivitySpace.domain_words words]
    refine ⟨_, rfl, ⟨rfl, trivial⟩, fun x => ?_⟩
    cases x with
    | int n => simp
    | str w =>
      show w ∈ dfaElem (MinDFA.dfaFromRegex [] : D) ↔ _
      rw [mem_emptyWords, Item.str.injEq, and_iff_right words]
  · rw [ConnectivitySpace.domain_intervals known words]
    refine ⟨_, rfl, ⟨rfl, CanonicalIntervalSet.canonical_empty⟩, fun x => ?_⟩
    refine iff_of_false ?_ fun ⟨yes, _⟩ => words yes
    cases x with
    | int n => exact CanonicalIntervalSet.not_mem_empty
    | str w => exact id

theorem peersDim (known : d ∈ allDimensionsList) (isPeers : IsPeers d) : PeersDim space.toSpace d := by
  refine ⟨isPeers, fun value key => ?_⟩
  obtain ⟨s, rfl, canonical⟩ :=
    ConnectivitySpace.key_intervals key (ConnectivitySpace.domain_intervals known (peers_noWords isPeers))
  exact ⟨s, rfl, canonical, ConnectivitySpace.key_ranges isPeers key⟩

theorem projection_type {space : Space (DfaElem D)} (known : d ∈ space.all_dimensions_list) {x : Item}
    (member : x ∈ projection space self d) : x.type = (space.domain d).type := by
  obtain ⟨p, point, _, rfl⟩ := member
  exact LayerElem.mem_type (point d known)

omit [DecidableEq K] in
/-- A port set with the values of the dimension is exact. -/
theorem denotes_ports {V : Set Item} (typed : ∀ x ∈ V, x.type = .IntervalSet)
    {r : DimensionValues D × Objects K} (isPortSet : IsPortSet heap V r) : Denotes peers V r := by
  obtain ⟨_, s, here, _, members⟩ := isPortSet
  unfold Denotes
  rw [here]
  intro x
  cases x with
  | int n => exact members n
  | str w => exact iff_of_false id fun inside => nomatch typed _ inside

omit [DecidableEq K] in
/-- What was added to the values is the only fault of the result. -/
theorem denotes_plain {t : DimensionType} {V : Set Item} {e : LayerElem (DfaElem D)}
    {r : DimensionValues D × Objects K} (isPlain : IsPlain heap t {x | x ∈ e ∨ x ∈ V} r) :
    Denotes peers V r ↔ ∀ x, x ∈ e → x ∈ V := by
  obtain ⟨_, g, here, _, members⟩ := isPlain
  unfold Denotes
  rw [here]
  constructor
  · exact fun exactly x added => (exactly x).mp ((members x).mpr (Or.inl added))
  · exact fun within x => (members x).trans ⟨fun either => either.elim (within x) id, Or.inr⟩

/-- The projection of a set that has a point is exact just where the indices of peers are read
right, and no empty word is added. -/
theorem projectOnOneDimension_exact (reachable : peers.Reachable) (valid : heap.Valid)
    (wellLayered : WellLayered space.toSpace self) (some : ∃ p, Point space.toSpace p ∧ Has self p)
    (known : d ∈ allDimensionsList) (supported : d ∉ ["icmp_type", "icmp_code"]) :
    Returns (projectOnOneDimension space.toSpace peers heap self d)
        (Denotes peers (projection space.toSpace self d)) ↔
      ProjectsExactly peers space.toSpace self d := by
  have listed : d ∈ space.toSpace.all_dimensions_list := space.dims.mem_iff.mpr known
  by_cases isPeers : IsPeers d
  · have noWords : ¬ IsWords d := by
      rcases isPeers with rfl | rfl <;> decide
    rw [project_peers_exact (peersDim known isPeers) wellLayered some
      (RegisteredPeers.reachable_indexed reachable).nodup valid listed supported]
    exact ⟨fun starts => ⟨fun _ => starts, fun yes => (peers_noWords isPeers yes).elim⟩,
      fun ⟨starts, _⟩ => starts isPeers⟩
  · have vacuous : (IsWords d → d ∈ self.active_dimensions → .str "" ∈ projection space.toSpace self d) ↔
        ProjectsExactly peers space.toSpace self d :=
      ⟨fun words => ⟨fun yes => (isPeers yes).elim, words⟩, fun ⟨_, words⟩ => words⟩
    rw [← vacuous]
    by_cases active : d ∈ self.active_dimensions
    · by_cases numbers : IsPorts d
      · have typed : (space.toSpace.domain d).type = .IntervalSet :=
          ConnectivitySpace.domain_intervals known (ports_noWords numbers)
        refine iff_of_true ?_ fun yes => (ports_noWords numbers yes).elim
        apply returns_mono (project_ports isPeers numbers active wellLayered some listed supported typed)
        exact fun r => denotes_ports fun x member => (projection_type listed member).trans typed
      · obtain ⟨e, empty, shaped, members⟩ : ∃ e, getEmptyDimensionByName D space.toSpace.manager d = .ok e ∧ _ :=
          emptyDimension known
        obtain ⟨r, run, isPlain⟩ : Returns (projectOnOneDimension space.toSpace peers heap self d) _ :=
          project_plain isPeers numbers active wellLayered some listed supported empty shaped
        have fault : Denotes peers (projection space.toSpace self d) r ↔ _ := denotes_plain isPlain
        constructor
        · intro ⟨r', run', denotes⟩ words _
          obtain rfl : r = r' := Except.ok.inj (run.symm.trans run')
          exact fault.mp denotes _ ((members _).mpr ⟨words, rfl⟩)
        · intro words
          refine ⟨r, run, fault.mpr fun x added => ?_⟩
          obtain ⟨isWords, rfl⟩ := (members x).mp added
          exact words isWords active
    · refine iff_of_true ?_ fun _ yes => (active yes).elim
      rw [project_inactive isPeers active listed supported]
      refine returns_pure fun x => ?_
      rw [mem_projection wellLayered some listed]
      unfold Takes
      simp only [if_neg active, exists_eq_left]

end Claim

section OneHost

/-- All connections to the host `a`. -/
noncomputable def oneHost : CanonicalHyperCubeSet (DfaElem WordSet) :=
  mk ["hosts"] [(.dfa (dfaElem (MinDFA.dfaFromRegex ['a'])), emptyInterval)]

theorem mem_oneHost {w : String} : w ∈ dfaElem (MinDFA.dfaFromRegex ['a'] : WordSet) ↔ w = "a" := by
  rw [mem_dfaElem, MinDFA.mem_dfaFromPlain (by simp [Regex.Plain]), ← String.toList_inj]
  generalize w.toList = cs
  constructor
  · intro reads
    cases reads with
    | cons first rest =>
      cases rest
      obtain rfl := first.resolve_left (by decide)
      rfl
  · rintro rfl
    exact .cons (Or.inr rfl) .nil

theorem oneHost_key : Key (ConnectivitySpace.init WordSet).toSpace "hosts" (.dfa (dfaElem (MinDFA.dfaFromRegex ['a']))) := by
  refine ⟨⟨rfl, trivial⟩, ⟨.str "a", mem_oneHost.mpr rfl⟩, fun x inside => ?_⟩
  cases x with
  | int n => exact inside.elim
  | str w =>
    obtain rfl := mem_oneHost.mp inside
    show "a" ∈ dfaElem (MinDFA.hostDomain : WordSet)
    rw [mem_dfaElem, MinDFA.mem_hostWords]
    exact List.all_iff_forall_prop.mp (by decide)

theorem oneHost_layered : WellLayered (ConnectivitySpace.init WordSet).toSpace oneHost := by
  have known : "hosts" ∈ allDimensionsList := by decide
  refine ⟨List.singleton_sublist.mpr known, fun _ => ?_⟩
  refine ⟨_, rfl, List.forall_mem_singleton.mpr oneHost_key, List.forall_mem_singleton.mpr trivial, ?_⟩
  exact List.pairwise_singleton _ _

theorem oneHost_has {p : String → Item} : Has oneHost p ↔ p "hosts" = .str "a" := by
  show Holds ["hosts"] (mk ["hosts"] _) p ↔ _
  rw [single_holds, and_iff_left (show Holds [] emptyInterval p from trivial)]
  cases p "hosts" with
  | int n => exact iff_of_false id nofun
  | str w =>
    rw [Item.str.injEq]
    exact mem_oneHost

theorem oneHost_some : ∃ p, Point (ConnectivitySpace.init WordSet).toSpace p ∧ Has oneHost p := by
  obtain ⟨p, point⟩ := point_exists (ConnectivitySpace.init WordSet).toSpace
  have inside := oneHost_key.within (.str "a") (mem_oneHost.mpr rfl)
  exact ⟨_, point_update point inside, oneHost_has.mpr (Function.update_self ..)⟩

theorem oneHost_projection :
    Returns (projectOnOneDimension (ConnectivitySpace.init WordSet).toSpace ({} : RegisteredPeers String) {} oneHost
        "protocols") (Denotes {} (projection (ConnectivitySpace.init WordSet).toSpace oneHost "protocols")) ↔
      ProjectsExactly ({} : RegisteredPeers String) (ConnectivitySpace.init WordSet).toSpace oneHost "protocols" :=
  projectOnOneDimension_exact ⟨[], rfl⟩ Objects.valid_empty oneHost_layered oneHost_some (by decide) (by decide)

/-- Its hosts gain the empty host. -/
theorem oneHost_wrong : WellLayered (ConnectivitySpace.init WordSet).toSpace oneHost ∧
    (∃ p, Point (ConnectivitySpace.init WordSet).toSpace p ∧ Has oneHost p) ∧
    ¬ Returns (projectOnOneDimension (ConnectivitySpace.init WordSet).toSpace ({} : RegisteredPeers String) {} oneHost
      "hosts") (Denotes {} (projection (ConnectivitySpace.init WordSet).toSpace oneHost "hosts")) := by
  refine ⟨oneHost_layered, oneHost_some, fun ⟨r', run', denotes⟩ => ?_⟩
  have known : "hosts" ∈ allDimensionsList := by decide
  obtain ⟨e, empty, shaped, members⟩ :
      ∃ e, getEmptyDimensionByName WordSet (ConnectivitySpace.init WordSet).toSpace.manager "hosts" = .ok e ∧ _ :=
    emptyDimension known
  obtain ⟨r, run, isPlain⟩ : Returns (projectOnOneDimension (ConnectivitySpace.init WordSet).toSpace
      ({} : RegisteredPeers String) {} oneHost "hosts") _ :=
    project_plain (by decide) (by decide) (List.mem_singleton_self _) oneHost_layered oneHost_some known (by decide)
      empty shaped
  obtain rfl : r = r' := Except.ok.inj (run.symm.trans run')
  obtain ⟨p, _, has, here⟩ := (denotes_plain isPlain).mp denotes _ ((members _).mpr ⟨Or.inl rfl, rfl⟩)
  rw [oneHost_has.mp has, Item.str.injEq] at here
  exact absurd here (by decide)

end OneHost

end Nca.CoreDS
