import Nca.CoreDS.Dimensions

/-!
Canonical representation of a set of cubes. A hypercube set maps disjoint values of its first
active dimension to hypercube sets over the remaining ones; at the last active dimension the
values map to an empty interval. Recursive methods descend one active dimension at a time, and
`depth` bounds how deep they may go.
-/

namespace Nca.CoreDS
open Lib Python

/-- A hypercube set, or the empty interval that stands below the last active dimension. -/
inductive CanonicalHyperCubeSet (L : Type) where
  | emptyInterval
  | mk (active_dimensions : List String)
      (layers : List (LayerElem L × CanonicalHyperCubeSet L))

namespace CanonicalHyperCubeSet

/-- `layers` of a hypercube set. -/
abbrev Layers (L : Type) := List (LayerElem L × CanonicalHyperCubeSet L)

variable {L : Type} [ExactSet L String]

def active_dimensions : CanonicalHyperCubeSet L → List String
  | emptyInterval => []
  | mk active_dimensions _ => active_dimensions

def layers : CanonicalHyperCubeSet L → Layers L
  | emptyInterval => []
  | mk _ layers => layers

def bool : CanonicalHyperCubeSet L → Bool
  | emptyInterval => false
  | mk active_dimensions layers => active_dimensions.isEmpty || !layers.isEmpty

mutual

def eq : CanonicalHyperCubeSet L → CanonicalHyperCubeSet L → Bool
  | emptyInterval, emptyInterval => true
  | mk active layers, mk active' layers' =>
    if !bool (mk active layers) && !bool (mk active' layers') then true
    else decide (active = active') && decide (layers.length = layers'.length) &&
      layersWithin layers layers'
  | _, _ => false

/-- Every entry of the first dictionary is one of the second. -/
def layersWithin : Layers L → Layers L → Bool
  | [], _ => true
  | (layer, sub_elem) :: rest, other =>
    (match Dict.get other layer with
      | some other_sub_elem => eq sub_elem other_sub_elem
      | none => false) && layersWithin rest other

end

def isAll : CanonicalHyperCubeSet L → Bool
  | emptyInterval => false
  | mk active_dimensions _ => active_dimensions.isEmpty

/-- `_is_last_dimension` of a set with these active dimensions. -/
def isLastDimension (active_dimensions : List String) : Bool :=
  decide (active_dimensions.length = 1)

/-- The recursive `_create_from_cube_aux`. -/
def createFromCubeAux : List (LayerElem L) → List String →
    Except Failure (CanonicalHyperCubeSet L)
  | [], _ => .error .index
  | [value], cube_dims => pure (mk cube_dims [(value, emptyInterval)])
  | value :: cube, cube_dims => do
    let sub_elem ← createFromCubeAux cube cube_dims.tail
    pure (mk cube_dims [(value, sub_elem)])

/-- `layer1 in equiv_classes`, and the append to its class or the new class. -/
def classAppend (layer1 : CanonicalHyperCubeSet L) (layer0 : LayerElem L) :
    List (CanonicalHyperCubeSet L × LayerElem L × List (LayerElem L)) →
    List (CanonicalHyperCubeSet L × LayerElem L × List (LayerElem L))
  | [] => [(layer1, layer0, [])]
  | (key, first, others) :: rest =>
    if eq key layer1 then (key, first, others ++ [layer0]) :: rest
    else (key, first, others) :: classAppend layer1 layer0 rest

def applyLayerElementsUnion : CanonicalHyperCubeSet L → Except Failure (CanonicalHyperCubeSet L)
  | emptyInterval => .error .attribute
  | mk active layers => do
    let equiv_classes := layers.foldl (fun classes e => classAppend e.2 e.1 classes) []
    let new_layers ← equiv_classes.foldlM (fun new_layers entry => do
      let layer_0_new_elem ← entry.2.2.foldlM LayerElem.or entry.2.1
      pure (Dict.set new_layers layer_0_new_elem entry.1)) []
    pure (mk active new_layers)

def andAux : Nat → CanonicalHyperCubeSet L → CanonicalHyperCubeSet L →
    Except Failure (CanonicalHyperCubeSet L)
  | 0, _, _ => .error .recursion
  | depth + 1, mk active layers, mk other_active other_layers => do
    assert (active = other_active)
    let res_layers ← layers.foldlM (fun res_layers self_entry =>
      other_layers.foldlM (fun res_layers other_entry => do
        let common_elem ← self_entry.1.and other_entry.1
        if !common_elem.bool then pure res_layers
        else if isLastDimension active then pure (Dict.set res_layers common_elem emptyInterval)
        else do
          let new_sub_elem ← andAux depth self_entry.2 other_entry.2
          if new_sub_elem.bool then pure (Dict.set res_layers common_elem new_sub_elem)
          else pure res_layers) res_layers) []
    applyLayerElementsUnion (mk active res_layers)
  | _ + 1, _, _ => .error .attribute

/-- The locals of the loops of `or_aux`. -/
structure OrLocals (L : Type) where
  res_layers : Layers L
  remaining_other_layers : List (LayerElem L × LayerElem L)
  remaining_self_layer : LayerElem L

/-- One turn of the inner loop of `or_aux`; `new_sub_elem` is the union of the two sub-cubes. -/
def orInner (self_layer other_layer : LayerElem L)
    (new_sub_elem : Except Failure (CanonicalHyperCubeSet L)) (locals : OrLocals L) :
    Except Failure (OrLocals L) := do
  let common_elem ← self_layer.and other_layer
  if !common_elem.bool then pure locals
  else
    match Dict.get locals.remaining_other_layers other_layer with
    | none => .error .key
    | some remaining => do
      let remaining ← remaining.sub common_elem
      let remaining_self_layer ← locals.remaining_self_layer.sub common_elem
      pure ⟨Dict.set locals.res_layers common_elem (← new_sub_elem),
        Dict.set locals.remaining_other_layers other_layer remaining, remaining_self_layer⟩

/-- One turn of the last loop of `or_aux`. -/
def orRest (other_layers : Layers L) (res_layers : Layers L)
    (entry : LayerElem L × LayerElem L) : Except Failure (Layers L) :=
  if entry.2.bool then
    match Dict.get other_layers entry.1 with
    | none => .error .key
    | some sub_elem => pure (Dict.set res_layers entry.2 sub_elem)
  else pure res_layers

def orAux : Nat → CanonicalHyperCubeSet L → CanonicalHyperCubeSet L →
    Except Failure (CanonicalHyperCubeSet L)
  | 0, _, _ => .error .recursion
  | depth + 1, mk active layers, mk other_active other_layers => do
    assert (active = other_active)
    let remaining_other_layers := other_layers.foldl
      (fun remaining e => Dict.set remaining e.1 e.1) []
    let (res_layers, remaining_other_layers) ← layers.foldlM (fun acc self_entry => do
      let locals ← other_layers.foldlM (fun locals other_entry =>
        orInner self_entry.1 other_entry.1
          (if isLastDimension active then pure emptyInterval
            else orAux depth self_entry.2 other_entry.2) locals) ⟨acc.1, acc.2, self_entry.1⟩
      if locals.remaining_self_layer.bool then
        pure (Dict.set locals.res_layers locals.remaining_self_layer self_entry.2,
          locals.remaining_other_layers)
      else pure (locals.res_layers, locals.remaining_other_layers)) ([], remaining_other_layers)
    let res_layers ← remaining_other_layers.foldlM (orRest other_layers) res_layers
    applyLayerElementsUnion (mk active res_layers)
  | _ + 1, _, _ => .error .attribute

/-- One turn of the inner loop of `sub_aux`; `new_sub_elem` is the difference of the sub-cubes. -/
def subInner (last : Bool) (self_layer other_layer : LayerElem L)
    (new_sub_elem : Except Failure (CanonicalHyperCubeSet L)) (acc : Layers L × LayerElem L) :
    Except Failure (Layers L × LayerElem L) := do
  let common_elem ← self_layer.and other_layer
  if !common_elem.bool then pure acc
  else do
    let remaining_self_layer ← acc.2.sub common_elem
    if last then pure (acc.1, remaining_self_layer)
    else do
      let new_sub_elem ← new_sub_elem
      if new_sub_elem.bool then
        pure (Dict.set acc.1 common_elem new_sub_elem, remaining_self_layer)
      else pure (acc.1, remaining_self_layer)

def subAux : Nat → CanonicalHyperCubeSet L → CanonicalHyperCubeSet L →
    Except Failure (CanonicalHyperCubeSet L)
  | 0, _, _ => .error .recursion
  | depth + 1, mk active layers, mk other_active other_layers => do
    assert (active = other_active)
    let res_layers ← layers.foldlM (fun res_layers self_entry => do
      let (res_layers, remaining_self_layer) ← other_layers.foldlM (fun acc other_entry =>
        subInner (isLastDimension active) self_entry.1 other_entry.1
          (subAux depth self_entry.2 other_entry.2) acc) (res_layers, self_entry.1)
      if remaining_self_layer.bool then
        pure (Dict.set res_layers remaining_self_layer self_entry.2)
      else pure res_layers) []
    applyLayerElementsUnion (mk active res_layers)
  | _ + 1, _, _ => .error .attribute

section Space
variable (space : Space L)

def getDimensionsSubsetByOrder (dimensions_subset : List String) : List String :=
  space.all_dimensions_list.filter (fun dim => decide (dim ∈ dimensions_subset))

def getEntireSpaceCube (dimensions_list_restriction : List String) :
    Except Failure (List (LayerElem L)) :=
  (getDimensionsSubsetByOrder space dimensions_list_restriction).mapM
    space.manager.getDimensionDomainByName

/-- `CanonicalHyperCubeSet(dimensions, allow_all)`. -/
def init (allow_all : Bool := false) : CanonicalHyperCubeSet L :=
  mk (if allow_all then [] else space.all_dimensions_list) []

def clear : CanonicalHyperCubeSet L := mk space.all_dimensions_list []

/-- The test of `_reduce_cube` that the value is not the whole domain. -/
def leavesOut (dim_type : DimensionType) (dim_domain dim_val : LayerElem L) :
    Except Failure Bool :=
  match dim_type with
  | .DFA => do pure (!(← dim_val.isDfaAllWords dim_domain))
  | .IntervalSet => pure (decide (dim_domain ≠ dim_val))

/-- `_reduce_cube`: `none` for an empty cube. -/
def reduceCube : List (LayerElem L × String) → Except Failure (Option (List (LayerElem L × String)))
  | [] => pure (some [])
  | (dim_val, dim_name) :: rest => do
    let dim_domain ← space.manager.getDimensionDomainByName dim_name
    let dim_type ← space.manager.getDimensionTypeByName dim_name
    if !dim_val.bool then pure none
    else do
      let partly ← leavesOut dim_type dim_domain dim_val
      match ← reduceCube rest with
      | none => pure none
      | some res => pure (some (if partly then (dim_val, dim_name) :: res else res))

def createFromCube (cube : List (LayerElem L)) (cube_dims : List String) :
    Except Failure (CanonicalHyperCubeSet L) := do
  assert (cube ≠ [])
  assert (cube.length = cube_dims.length)
  match ← reduceCube space (cube.zip cube_dims) with
  | none => pure (init space)
  | some [] => pure (init space true)
  | some reduced => createFromCubeAux (reduced.map Prod.fst) (reduced.map Prod.snd)

/-- `_get_aligned_cube_by_new_active_dimensions` for a point; to a point no dimension is added. -/
def alignedItem (point : List Item) (new_active_dimensions : List String) :
    Except Failure (List Item) :=
  if space.all_dimensions_list = new_active_dimensions then pure point
  else new_active_dimensions.mapM fun active_dim_name =>
    match Dict.get (space.all_dimensions_list.zip point) active_dim_name with
    | some value => pure value
    | none => .error .attribute

/-- The type check of `__contains__` on one coordinate. -/
def checkCoordinate (entry : String × Item) : Except Failure Unit := do
  match ← space.manager.getDimensionTypeByName entry.1, entry.2 with
  | .DFA, .str _ => pure ()
  | .IntervalSet, .int _ => pure ()
  | _, _ => .error .assertion

/-- The length and type checks of `__contains__`. -/
def checkItem (point : List Item) : Except Failure Unit :=
  if point.length < space.all_dimensions_list.length then
    .error (.raised "input item len mismatch")
  else (space.all_dimensions_list.zip point).forM (checkCoordinate space)

/-- The loop of `__contains__`: the sub-cube under the first layer that has the value. -/
def findLayer (value : Item) : Layers L → Except Failure (Option (CanonicalHyperCubeSet L))
  | [] => pure none
  | (layer_elem, layer_sub_elem) :: rest => do
    if ← layer_elem.contains value then pure (some layer_sub_elem) else findLayer value rest

def contains : Nat → CanonicalHyperCubeSet L → List Item → Except Failure Bool
  | 0, _, _ => .error .recursion
  | _ + 1, emptyInterval, _ => .error .attribute
  | depth + 1, mk active layers, point => do
    checkItem space point
    if isAll (mk active layers) then pure true
    else if !bool (mk active layers) then pure false
    else do
      let relevant_input_item ← alignedItem space point active
      match ← findLayer (← item relevant_input_item 0) layers with
      | none => pure false
      | some layer_sub_elem =>
        if isLastDimension active then pure true else contains depth layer_sub_elem point

def buildNewActiveDimensions : List String → CanonicalHyperCubeSet L →
    Except Failure (CanonicalHyperCubeSet L)
  | _, emptyInterval => .error .attribute
  | [], mk active layers => do
    assert (active ⊆ [])
    pure (mk active layers)
  | new_dim :: rest, mk active layers => do
    assert (active ⊆ new_dim :: rest)
    if active = new_dim :: rest then pure (mk active layers)
    else if (← item active 0) = new_dim then
      if !isLastDimension active then do
        let layers ← layers.mapM (fun e => do
          pure (e.1, ← buildNewActiveDimensions rest e.2))
        pure (mk (new_dim :: rest) layers)
      else do
        let next ← item rest 0
        let dim_all_values ← space.manager.getDimensionDomainByName next
        let new_sub_elem ← buildNewActiveDimensions rest
          (mk [next] [(dim_all_values, emptyInterval)])
        pure (mk (new_dim :: rest) (layers.map fun e => (e.1, new_sub_elem)))
    else do
      let dim_all_values ← space.manager.getDimensionDomainByName new_dim
      let sub_elem ← buildNewActiveDimensions rest (mk active layers)
      pure (mk (new_dim :: rest) [(dim_all_values, sub_elem)])

def setActiveDimensions (dim_names_set : List String) (self : CanonicalHyperCubeSet L) :
    Except Failure (CanonicalHyperCubeSet L) :=
  if dim_names_set ⊆ self.active_dimensions then pure self
  else do
    let new_active_dimensions :=
      getDimensionsSubsetByOrder space (self.active_dimensions ++ dim_names_set)
    if self.active_dimensions = [] then do
      let all_domains_cube ← getEntireSpaceCube space new_active_dimensions
      createFromCubeAux all_domains_cube new_active_dimensions
    else buildNewActiveDimensions space new_active_dimensions self

/-- The two operands over their common active dimensions. -/
def prepareCommonActiveDimensions (self other : CanonicalHyperCubeSet L) :
    Except Failure (CanonicalHyperCubeSet L × CanonicalHyperCubeSet L) :=
  if self.active_dimensions = other.active_dimensions then pure (self, other)
  else do
    let required_active_dimensions := self.active_dimensions ++ other.active_dimensions
    let self ← setActiveDimensions space required_active_dimensions self
    if required_active_dimensions ⊆ other.active_dimensions then pure (self, other)
    else do
      let other_copy ← setActiveDimensions space required_active_dimensions other
      pure (self, other_copy)

end Space

/-- `layers` as an attribute: the empty interval has none. -/
def getLayers : CanonicalHyperCubeSet L → Except Failure (Layers L)
  | emptyInterval => .error .attribute
  | mk _ layers => pure layers

section Containment
variable (space : Space L)

def getLastDimCubeValue : CanonicalHyperCubeSet L → Except Failure (LayerElem L)
  | emptyInterval => .error .attribute
  | mk active layers => do
    assert (active.length = 1 ∧ layers.length = 1 ∧ bool (mk active layers) = true)
    match layers with
    | [] => .error .index
    | e :: _ => pure e.1

def isSubElemEntireSubSpace : CanonicalHyperCubeSet L → Except Failure Bool
  | emptyInterval => .error .attribute
  | mk active layers => do
    let sub_cube_required ← getEntireSpaceCube space active
    let obj_from_cube ← createFromCubeAux sub_cube_required active
    pure (eq obj_from_cube (mk active layers))

/-- Case 2(b): the union of the keys, or `none` once a sub-cube does not contain self. -/
def collectCovered (contained : CanonicalHyperCubeSet L → Except Failure Bool) :
    Option (LayerElem L) → Layers L → Except Failure (Option (Option (LayerElem L)))
  | covered_elem_res, [] => pure (some covered_elem_res)
  | covered_elem_res, (elem, sub_elem) :: rest => do
    if !(← contained sub_elem) then pure none
    else
      match covered_elem_res with
      | none => collectCovered contained (some elem) rest
      | some covered => collectCovered contained (some (← covered.or elem)) rest

/-- Case 3(b), the inner loop: whether the key is used up, or `none` for an early `False`. -/
def walkLayer (blocked : CanonicalHyperCubeSet L → Except Failure Bool) :
    LayerElem L → Layers L → Except Failure (Option Bool)
  | _, [] => pure (some false)
  | current_layer_0, (other_layer, other_sub_elem) :: rest => do
    let common_part ← current_layer_0.and other_layer
    if common_part.bool then
      if ← blocked other_sub_elem then pure none
      else do
        let remaining ← current_layer_0.sub common_part
        if remaining.bool then walkLayer blocked remaining rest else pure (some true)
    else walkLayer blocked current_layer_0 rest

/-- Case 3(b), the outer loop: `is_subset_count`, or `none` for an early `False`. -/
def walkLayers (walk : LayerElem L × CanonicalHyperCubeSet L → Except Failure (Option Bool)) :
    Nat → Layers L → Except Failure (Option Nat)
  | is_subset_count, [] => pure (some is_subset_count)
  | is_subset_count, layer :: rest => do
    match ← walk layer with
    | none => pure none
    | some true => walkLayers walk (is_subset_count + 1) rest
    | some false => walkLayers walk is_subset_count rest

def containedInAux : List String → CanonicalHyperCubeSet L → CanonicalHyperCubeSet L →
    Except Failure Bool
  | [], _, _ => .error .assertion
  | current_dim :: rest, mk active layers, mk other_active other_layers =>
    if current_dim ∉ other_active then
      if isLastDimension active then
        if current_dim :: rest = active then pure true
        else isSubElemEntireSubSpace space (mk other_active other_layers)
      else layers.foldlM (fun res e => do
        let contained ← containedInAux rest e.2 (mk other_active other_layers)
        pure (res && contained)) true
    else if current_dim ∉ active then
      if isLastDimension other_active then
        isSubElemEntireSubSpace space (mk other_active other_layers)
      else do
        assert (other_layers ≠ [])
        match ← collectCovered (containedInAux rest (mk active layers)) none other_layers with
        | none => pure false
        | some covered_elem_res => do
          let domain ← space.manager.getDimensionDomainByName current_dim
          pure (decide (covered_elem_res = some domain))
    else do
      assert (current_dim ∈ active ∧ current_dim ∈ other_active)
      if isLastDimension active && isLastDimension other_active then do
        let value ← getLastDimCubeValue (mk active layers)
        value.containedIn (← getLastDimCubeValue (mk other_active other_layers))
      else
        -- what keeps a common part of the keys from being contained
        let blocked (sub_elem other_sub_elem : CanonicalHyperCubeSet L) :
            Except Failure Bool :=
          if !isLastDimension active && !isLastDimension other_active then do
            pure (!(← containedInAux rest sub_elem other_sub_elem))
          else if isLastDimension active && !isLastDimension other_active then do
            pure (!(← isSubElemEntireSubSpace space other_sub_elem))
          else pure false
        match ← walkLayers (fun e => walkLayer (blocked e.2) e.1 other_layers) 0 layers with
        | none => pure false
        | some is_subset_count => pure (decide (is_subset_count = layers.length))
  | _ :: _, _, _ => .error .attribute

def containedIn (self other : CanonicalHyperCubeSet L) : Except Failure Bool :=
  if other.isAll || !self.bool then pure true
  else if !other.bool || self.isAll then pure false
  else
    let required_active_dimensions := self.active_dimensions ++ other.active_dimensions
    containedInAux space (getDimensionsSubsetByOrder space required_active_dimensions) self other

end Containment

def removeSomeActiveDimensions : Nat → List String → CanonicalHyperCubeSet L →
    Except Failure (CanonicalHyperCubeSet L)
  | 0, _, _ => .error .recursion
  | _ + 1, _, emptyInterval => .error .attribute
  | depth + 1, new_active_dimensions, mk active layers => do
    assert (new_active_dimensions ⊆ active)
    assert (new_active_dimensions ≠ [])
    if active = new_active_dimensions then pure (mk active layers)
    else if (← item active 0) = (← item new_active_dimensions 0) then
      if new_active_dimensions.tail ≠ [] then do
        let layers ← layers.mapM (fun e => do
          pure (e.1, ← removeSomeActiveDimensions depth new_active_dimensions.tail e.2))
        pure (mk new_active_dimensions layers)
      else pure (mk new_active_dimensions (layers.map fun e => (e.1, emptyInterval)))
    else do
      let new_layers ← layers.foldlM (fun new_layers e => do
        let sub_layers ← e.2.getLayers
        pure (sub_layers.foldl (fun new_layers e' => Dict.set new_layers e'.1 e'.2) new_layers)) []
      removeSomeActiveDimensions depth new_active_dimensions (mk active.tail new_layers)

/-- `res[dim] |= dim_values`, or the first write of `res[dim]`. -/
def mergeValues (res : List (String × Finset (LayerElem L)))
    (entry : String × Finset (LayerElem L)) : List (String × Finset (LayerElem L)) :=
  match Dict.get res entry.1 with
  | none => Dict.set res entry.1 entry.2
  | some dim_values => Dict.set res entry.1 (dim_values ∪ entry.2)

def getValuesSetsPerActiveDimension : Nat → CanonicalHyperCubeSet L →
    Except Failure (List (String × Finset (LayerElem L)))
  | 0, _ => .error .recursion
  | _ + 1, emptyInterval => .error .attribute
  | depth + 1, mk active layers => do
    let dim ← item active 0
    let res := [(dim, (layers.map Prod.fst).toFinset)]
    if isLastDimension active then pure res
    else
      layers.foldlM (fun res e => do
        let sub_res ← getValuesSetsPerActiveDimension depth e.2
        pure (sub_res.foldl mergeValues res)) res

section Space
variable (space : Space L)

/-- How deep a recursion over active dimensions can go. -/
def maxDepth : Nat := space.all_dimensions_list.length + 1

def setInactiveDimensions (dim_names_list : List String) (self : CanonicalHyperCubeSet L) :
    Except Failure (CanonicalHyperCubeSet L) :=
  let new_active_dimensions := getDimensionsSubsetByOrder space
    (self.active_dimensions.filter fun dim => decide (dim ∉ dim_names_list))
  if new_active_dimensions = [] then pure (mk [] [])
  else removeSomeActiveDimensions (maxDepth space) new_active_dimensions self

def reduceActiveDimensions (self : CanonicalHyperCubeSet L) :
    Except Failure (CanonicalHyperCubeSet L) :=
  if !self.bool || self.active_dimensions.isEmpty then pure self
  else do
    let values_per_dimension ← getValuesSetsPerActiveDimension (maxDepth space) self
    let dimensions_to_reduce ← values_per_dimension.foldlM (fun dimensions_to_reduce entry => do
      let dim_domain ← space.manager.getDimensionDomainByName entry.1
      pure (if {dim_domain} = entry.2 then dimensions_to_reduce ++ [entry.1]
        else dimensions_to_reduce)) []
    setInactiveDimensions space (getDimensionsSubsetByOrder space dimensions_to_reduce) self

/-- `self &= other`. -/
def and (self other : CanonicalHyperCubeSet L) : Except Failure (CanonicalHyperCubeSet L) :=
  if other.isAll then pure self
  else if !other.bool || !self.bool then pure (clear space)
  else if self.isAll then pure other
  else do
    let (self, other_copy) ← prepareCommonActiveDimensions space self other
    reduceActiveDimensions space (← andAux (maxDepth space) self other_copy)

/-- `self |= other`. -/
def or (self other : CanonicalHyperCubeSet L) : Except Failure (CanonicalHyperCubeSet L) :=
  if other.isAll || self.isAll then pure (mk [] [])
  else if !other.bool then pure self
  else if !self.bool then pure other
  else do
    let (self, other_copy) ← prepareCommonActiveDimensions space self other
    reduceActiveDimensions space (← orAux (maxDepth space) self other_copy)

/-- `self -= other`. -/
def sub (self other : CanonicalHyperCubeSet L) : Except Failure (CanonicalHyperCubeSet L) := do
  let self := if other.isAll then clear space else self
  if !other.bool then pure self
  else do
    let (self, other_copy) ← prepareCommonActiveDimensions space self other
    reduceActiveDimensions space (← subAux (maxDepth space) self other_copy)

/-- `add_cube`; the dimensions default to the first ones of the space. -/
def addCube (self : CanonicalHyperCubeSet L) (cube_to_add : List (LayerElem L))
    (cube_dimensions : Option (List String) := none) : Except Failure (CanonicalHyperCubeSet L) :=
  let cube_dimensions :=
    cube_dimensions.getD (space.all_dimensions_list.take cube_to_add.length)
  if cube_to_add = [] then pure self
  else if cube_to_add.any fun dim_value => !dim_value.bool then pure self
  else do self.or space (← createFromCube space cube_to_add cube_dimensions)

/-- `add_hole`; the dimensions default to the first ones of the space. -/
def addHole (self : CanonicalHyperCubeSet L) (hole_to_add : List (LayerElem L))
    (hole_dimensions : Option (List String) := none) : Except Failure (CanonicalHyperCubeSet L) :=
  let hole_dimensions :=
    hole_dimensions.getD (space.all_dimensions_list.take hole_to_add.length)
  if hole_to_add = [] then pure self
  else if hole_to_add.any fun dim_value => !dim_value.bool then pure self
  else do self.sub space (← createFromCube space hole_to_add hole_dimensions)

end Space
end CanonicalHyperCubeSet
end Nca.CoreDS
