import Nca.CoreDS.MinDFA
import Nca.Lib.Dict

/-!
The base class of the YAML parsers: values of YAML resources, and the checks of the fields of a
resource that every parser begins with.
-/

namespace Nca.Parsers
open CoreDS Lib

/-- What parsing raises. -/
inductive ParseError where
  | SyntaxError (message : String)
  | AttributeError
  | TypeError
  | AssertionError
  | IndexError
  | RecursionError
  deriving DecidableEq, Repr

/-- How a label is compared with given values. -/
inductive FilterActionType where
  | In
  | NotIn
  | Contain
  | StartWith
  | EndWith
  deriving DecidableEq, Repr

/-- `self.syntax_error(message)`. -/
def syntaxError {α : Type} (message : String) : Except ParseError α := .error (.SyntaxError message)

/-- `if bad: self.syntax_error(message)`. -/
def syntaxErrorIf (bad : Prop) [Decidable bad] (message : String) : Except ParseError Unit :=
  if bad then syntaxError message else .ok ()

@[simp] theorem syntaxErrorIf_ok {bad : Prop} [Decidable bad] {message : String} {u : Unit} :
    syntaxErrorIf bad message = .ok u ↔ ¬ bad := by
  unfold syntaxErrorIf
  by_cases h : bad <;> simp [h, syntaxError]

theorem syntaxErrorIf_pass {bad : Prop} [Decidable bad] (fine : ¬ bad) (message : String) :
    syntaxErrorIf bad message = .ok () := if_neg fine

/-- The value of a resource or of one of its fields. A scalar that is none of the others, such as a
float or a date, is known by its truth value only. -/
inductive Yaml where
  | null
  | bool (b : Bool)
  | int (n : Int)
  | other (truth : Bool)
  | str (s : String)
  | list (items : List Yaml)
  | dict (entries : List (String × Yaml))

/-- The types that fields are checked for, with their names in messages. -/
inductive ValueType where
  | str
  | int
  | list
  | dict
  deriving DecidableEq, Repr

def ValueType.name : ValueType → String
  | str => "<class 'str'>"
  | int => "<class 'int'>"
  | list => "<class 'list'>"
  | dict => "<class 'dict'>"

namespace Yaml

def isNull : Yaml → Bool
  | null => true
  | _ => false

def truthy : Yaml → Bool
  | null => false
  | bool b => b
  | int n => decide (n ≠ 0)
  | other truth => truth
  | str s => decide (s ≠ "")
  | list items => !items.isEmpty
  | dict entries => !entries.isEmpty

/-- `isinstance(value, value_type)`; a boolean is an integer. -/
def isInstance : Yaml → ValueType → Bool
  | str _, .str => true
  | int _, .int => true
  | bool _, .int => true
  | list _, .list => true
  | dict _, .dict => true
  | _, _ => false

def isStr (key : String) : Yaml → Bool
  | str s => s == key
  | _ => false

/-- `key in value`. -/
def has (value : Yaml) (key : String) : Except ParseError Bool :=
  match value with
  | dict entries => .ok (Dict.get entries key).isSome
  | list items => .ok (items.any (isStr key))
  | str s => .ok (decide (key.toList <:+: s.toList))
  | _ => .error .TypeError

/-- `value.get(key)`. -/
def get (value : Yaml) (key : String) : Except ParseError Yaml :=
  match value with
  | dict entries => .ok ((Dict.get entries key).getD null)
  | _ => .error .AttributeError

/-- `value.keys()`. -/
def keys (value : Yaml) : Except ParseError (List String) :=
  match value with
  | dict entries => .ok (Dict.keys entries)
  | _ => .error .AttributeError

/-- The value of a key, null where the key is missing. -/
def field (value : Yaml) (key : String) : Yaml :=
  match value with
  | dict entries => (Dict.get entries key).getD null
  | _ => null

theorem isNull_iff {value : Yaml} : value.isNull = true ↔ value = null := by
  cases value <;> simp [isNull]

theorem isStr_eq {value : Yaml} {key : String} (same : value.isStr key = true) : value = str key := by
  cases value <;> simp_all [isStr]

/-- What has a key is not empty. -/
theorem truthy_of_has {value : Yaml} {key : String} (some : key ≠ "") (has : value.has key = .ok true) :
    value.truthy = true := by
  cases value with
  | str s =>
    have inside : key.toList <:+: s.toList := of_decide_eq_true (Except.ok.inj has)
    refine decide_eq_true fun empty => some ?_
    rw [empty] at inside
    exact String.toList_eq_nil_iff.mp (List.infix_nil.mp inside)
  | list items =>
    cases items with
    | nil => cases has
    | cons => rfl
  | dict entries =>
    cases entries with
    | nil => cases has
    | cons => rfl
  | _ => cases has

theorem get_ok {value found : Yaml} {key : String} :
    value.get key = .ok found ↔ (∃ entries, value = dict entries) ∧ value.field key = found := by
  cases value <;> simp [get, field]

/-- The value of a field that holds a string, where its type has been checked. -/
def asStr : Yaml → Except ParseError String
  | str s => .ok s
  | _ => .error .TypeError

/-- The items of a list to loop over, where its type has been checked; nothing if it is missing. -/
def asList : Yaml → Except ParseError (List Yaml)
  | list items => .ok items
  | null => .ok []
  | _ => .error .TypeError

/-- The items of a dictionary to loop over, where its type has been checked; nothing if it is
missing. -/
def asDict : Yaml → Except ParseError (List (String × Yaml))
  | dict entries => .ok entries
  | null => .ok []
  | _ => .error .AttributeError

theorem asStr_ok {value : Yaml} {s : String} : value.asStr = .ok s ↔ value = str s := by
  cases value <;> simp [asStr]

theorem asList_ok {value : Yaml} {found : List Yaml} :
    value.asList = .ok found ↔ value = list found ∨ value = null ∧ found = [] := by
  cases value <;> simp [asList, eq_comm]

theorem asDict_ok {value : Yaml} {found : List (String × Yaml)} :
    value.asDict = .ok found ↔ value = dict found ∨ value = null ∧ found = [] := by
  cases value <;> simp [asDict, eq_comm]

/-- `value.items()`. -/
def items : Yaml → Except ParseError (List (String × Yaml))
  | dict entries => .ok entries
  | _ => .error .AttributeError

/-- What a loop over the value runs through. -/
def iterate : Yaml → Except ParseError (List Yaml)
  | list items => .ok items
  | dict entries => .ok (entries.map fun entry => str entry.1)
  | str s => .ok (s.toList.map fun c => str (String.singleton c))
  | _ => .error .TypeError

/-- The text of which a method is called. -/
def asText : Yaml → Except ParseError Str
  | str s => .ok s.toList
  | _ => .error .AttributeError

def toStr : Yaml → String
  | .str s => s
  | _ => ""

def toList : Yaml → List Yaml
  | .list items => items
  | _ => []

def toDict : Yaml → List (String × Yaml)
  | .dict entries => entries
  | _ => []

theorem asList_toList {value : Yaml} {found : List Yaml} (listed : value.asList = .ok found) :
    value.toList = found := by
  rcases Yaml.asList_ok.mp listed with rfl | ⟨rfl, rfl⟩ <;> rfl

theorem asDict_toDict {value : Yaml} {found : List (String × Yaml)}
    (listed : value.asDict = .ok found) : value.toDict = found := by
  rcases Yaml.asDict_ok.mp listed with rfl | ⟨rfl, rfl⟩ <;> rfl

end Yaml

/-- The usage code of a key (0 optional, 1 must have, 2 not yet supported, 3 ignored even if
specified), with the type of its value where one is given. -/
structure KeyInfo where
  code : Nat
  value_type : Option ValueType := none

section Checks

variable (dict_to_check : Yaml) (dict_name : String)

/-- The checks of the value of one key. -/
def checkValue (allowed_values : List (String × List String)) (key : String) (info : KeyInfo)
    (value : Yaml) : Except ParseError Unit := do
  syntaxErrorIf (info.code = 1 ∧ value.isNull) s!"mandatory {key} value can not be null in {dict_name}"
  match info.value_type with
  | none => pure ()
  | some value_type =>
    syntaxErrorIf (!value.isNull && !value.isInstance value_type)
      s!"type of {key} is not {value_type.name} in {dict_name}"
  match Dict.get allowed_values key with
  | none => pure ()
  | some allowed =>
    syntaxErrorIf (value.truthy && !allowed.any fun s => value.isStr s)
      s!"{key} has invalid value in {dict_name}"

/-- One turn of the loop over the allowed keys. -/
def checkField (allowed_values : List (String × List String)) (key : String) (info : KeyInfo) :
    Except ParseError Unit := do
  let present ← dict_to_check.has key
  syntaxErrorIf (info.code = 1 ∧ !present) s!"{dict_name} must have {key} entry"
  if present then
    syntaxErrorIf (info.code = 2) s!"{key} is not yet supported inside {dict_name}"
    checkValue dict_name allowed_values key info (← dict_to_check.get key)

def checkFieldsValidity (allowed_keys : List (String × KeyInfo))
    (allowed_values : List (String × List String) := []) : Except ParseError Unit := do
  allowed_keys.forM fun entry => checkField dict_to_check dict_name allowed_values entry.1 entry.2
  let map_keys ← dict_to_check.keys
  match map_keys.find? fun key => (Dict.get allowed_keys key).isNone with
  | none => pure ()
  | some bad_key =>
    syntaxError s!"{bad_key} is not a valid entry in the specification of {dict_name}"

/-- What is checked of the field of one key. -/
structure FieldValid (entries : List (String × Yaml)) (allowed_values : List (String × List String))
    (key : String) (info : KeyInfo) : Prop where
  mandatory : info.code = 1 → ∃ value, Dict.get entries key = some value ∧ value.isNull = false
  supported : info.code = 2 → Dict.get entries key = none
  typed : ∀ value_type, info.value_type = some value_type → ∀ value,
    Dict.get entries key = some value → value.isNull = false → value.isInstance value_type = true
  allowed : ∀ allowed, Dict.get allowed_values key = some allowed → ∀ value,
    Dict.get entries key = some value → value.truthy = true → ∃ s ∈ allowed, value.isStr s = true

variable {dict_name : String} {allowed_values : List (String × List String)} {key : String}
  {info : KeyInfo} {entries : List (String × Yaml)}

theorem checkValue_ok {value : Yaml} : checkValue dict_name allowed_values key info value = .ok () ↔
    (info.code = 1 → value.isNull = false) ∧
    (∀ value_type, info.value_type = some value_type → value.isNull = false →
      value.isInstance value_type = true) ∧
    ∀ allowed, Dict.get allowed_values key = some allowed → value.truthy = true →
      ∃ s ∈ allowed, value.isStr s = true := by
  unfold checkValue
  rw [bind_ok]
  simp only [syntaxErrorIf_ok]
  cases typed : info.value_type <;> cases listed : Dict.get allowed_values key <;>
    simp [bind_ok, pure, Except.pure]

theorem checkField_ok : checkField (.dict entries) dict_name allowed_values key info = .ok () ↔
    FieldValid entries allowed_values key info := by
  unfold checkField
  rw [Yaml.has, ok_bind, bind_ok]
  simp only [syntaxErrorIf_ok]
  cases found : Dict.get entries key with
  | none =>
    constructor
    · rintro ⟨_, listed, _⟩
      constructor
      · intro mandatory
        simp [mandatory] at listed
      all_goals simp [found]
    · intro valid
      refine ⟨(), ?_, rfl⟩
      rintro ⟨mandatory, _⟩
      obtain ⟨_, present, _⟩ := valid.mandatory mandatory
      simp [found] at present
  | some value =>
    simp only [Option.isSome_some, if_true, Yaml.get, found, Option.getD_some, bind_ok,
      syntaxErrorIf_ok, checkValue_ok]
    constructor
    · rintro ⟨_, _, _, supported, _, same, present, typed, allowed⟩
      cases same
      exact ⟨fun mandatory => ⟨value, found, present mandatory⟩, fun code => absurd code supported,
        by simpa [found] using typed, by simpa [found] using allowed⟩
    · intro valid
      refine ⟨(), by simp, (), ?_, value, rfl, ?_, ?_, ?_⟩
      · intro code
        have absent := valid.supported code
        simp [found] at absent
      · intro mandatory
        obtain ⟨_, present, proper⟩ := valid.mandatory mandatory
        rw [found] at present
        rw [Option.some.inj present]
        exact proper
      · exact fun value_type typed => valid.typed value_type typed value found
      · exact fun allowed listed => valid.allowed allowed listed value found

theorem checkFieldsValidity_ok {y : Yaml} {allowed_keys : List (String × KeyInfo)} :
    checkFieldsValidity y dict_name allowed_keys allowed_values = .ok () ↔
    ∃ entries, y = .dict entries ∧
      (∀ entry ∈ allowed_keys, FieldValid entries allowed_values entry.1 entry.2) ∧
      ∀ key ∈ Dict.keys entries, (Dict.get allowed_keys key).isSome := by
  unfold checkFieldsValidity
  simp only [bind_ok]
  cases y with
  | dict entries =>
    have unknown : (match (Dict.keys entries).find? fun key => (Dict.get allowed_keys key).isNone with
        | none => pure ()
        | some bad_key => syntaxError
          s!"{bad_key} is not a valid entry in the specification of {dict_name}") =
          (.ok () : Except ParseError Unit) ↔
        ∀ key ∈ Dict.keys entries, (Dict.get allowed_keys key).isSome := by
      cases found : (Dict.keys entries).find? fun key => (Dict.get allowed_keys key).isNone with
      | none => simpa [pure, Except.pure, Option.isSome_iff_ne_none] using List.find?_eq_none.mp found
      | some bad_key =>
        have bad := List.find?_some found
        simp only [syntaxError, reduceCtorEq, false_iff, not_forall]
        refine ⟨bad_key, List.mem_of_find?_eq_some found, ?_⟩
        simpa using bad
    simp only [Yaml.keys, Yaml.dict.injEq, Except.ok.injEq, exists_eq_left']
    rw [← unknown]
    constructor
    · rintro ⟨_, fields, known⟩
      exact ⟨fun entry inside => checkField_ok.mp (forM_ok.mp fields entry inside), known⟩
    · rintro ⟨fields, known⟩
      exact ⟨(), forM_ok.mpr fun entry inside => checkField_ok.mpr (fields entry inside), known⟩
  | _ => simp [Yaml.keys]

/-- A field that is given has one of its allowed values. -/
theorem FieldValid.listed {allowed : List String} (valid : FieldValid entries allowed_values key info)
    (listed : Dict.get allowed_values key = some allowed)
    (given : ((Yaml.dict entries).field key).truthy = true) :
    ∃ s ∈ allowed, (Yaml.dict entries).field key = .str s := by
  have read : (Yaml.dict entries).field key = (Dict.get entries key).getD .null := rfl
  rw [read] at given ⊢
  cases found : Dict.get entries key with
  | none =>
    rw [found] at given
    cases given
  | some value =>
    rw [found] at given
    obtain ⟨s, among, same⟩ := valid.allowed allowed listed value found given
    exact ⟨s, among, Yaml.isStr_eq same⟩

end Checks

section Arrays

def validateExistingKeyIsNotNull (dict_elem : Yaml) (key : String) : Except ParseError Unit := do
  if ← dict_elem.has key then
    syntaxErrorIf ((← dict_elem.get key).isNull) s!"Key: '{key}' cannot be null "

/-- The array of a key of which nothing is checked but that it is one and is not empty. -/
def getKeyArrayAndValidateNotEmpty (dict_elem : Yaml) (key : String) :
    Except ParseError (Option (List Yaml)) := do
  match ← dict_elem.get key with
  | .null => return none
  | .list [] => syntaxError s!"Key: '{key}' cannot be empty "
  | .list items => return some items
  | _ => syntaxError s!"Key: '{key}' should be an array "

variable {entries : List (String × Yaml)} {key : String}

theorem validateExistingKey_ok {u : Unit} :
    validateExistingKeyIsNotNull (.dict entries) key = .ok u ↔ Dict.get entries key ≠ some .null := by
  unfold validateExistingKeyIsNotNull
  rw [Yaml.has, ok_bind, Yaml.get]
  cases found : Dict.get entries key with
  | none => simp [pure, Except.pure]
  | some value => cases value <;> simp [ok_bind, Yaml.isNull]

theorem getKeyArray_ok {found : Option (List Yaml)} (proper : Dict.get entries key ≠ some .null)
    (read : getKeyArrayAndValidateNotEmpty (.dict entries) key = .ok found) :
    Dict.get entries key = found.map .list := by
  unfold getKeyArrayAndValidateNotEmpty at read
  rw [Yaml.get, ok_bind] at read
  cases entry : Dict.get entries key with
  | none =>
    rw [entry] at read
    rw [← Except.ok.inj read]
    rfl
  | some value =>
    rw [entry, Option.getD_some] at read
    cases value with
    | null => exact absurd entry proper
    | list items =>
      cases items with
      | nil => cases read
      | cons item rest =>
        rw [← Except.ok.inj read]
        rfl
    | _ => cases read

/-- `len(value)`. -/
def Yaml.len : Yaml → Except ParseError Nat
  | .str s => .ok s.length
  | .list items => .ok items.length
  | .dict entries => .ok entries.length
  | _ => .error .TypeError

/-- `value.values()`. -/
def Yaml.values : Yaml → Except ParseError (List Yaml)
  | .dict entries => .ok (entries.map Prod.snd)
  | _ => .error .AttributeError

def validateDictElemHasNonEmptyArrayValue (dict_elem : Yaml) (dict_key_str : String) :
    Except ParseError Unit := do
  let lengths ← (← dict_elem.values).mapM Yaml.len
  syntaxErrorIf (lengths.all (· == 0)) s!"{dict_key_str} cannot be empty "

end Arrays

section Objects

def checkMetadataValidity (policy_metadata : Yaml) : Except ParseError Unit :=
  checkFieldsValidity policy_metadata "metadata"
    [("name", ⟨1, some .str⟩), ("namespace", ⟨0, some .str⟩), ("annotations", ⟨0, none⟩),
      ("clusterName", ⟨0, none⟩), ("creationTimestamp", ⟨0, none⟩),
      ("deletionGracePeriodSeconds", ⟨0, none⟩), ("deletionTimestamp", ⟨0, none⟩),
      ("finalizers", ⟨0, none⟩), ("generateName", ⟨0, none⟩), ("generation", ⟨0, none⟩),
      ("labels", ⟨0, none⟩), ("managedFields", ⟨0, none⟩), ("ownerReferences", ⟨0, none⟩),
      ("resourceVersion", ⟨0, none⟩), ("selfLink", ⟨0, none⟩), ("uid", ⟨0, none⟩)]

/-- The name of the resource and the name of its namespace, if it is of one of the kinds and of the
layer; the layer is given by one keyword. -/
def parseGenericYamlObjectsFields (yaml_object : Yaml) (object_kind object_version : List String)
    (layer_keyword : String) (spec_required : Bool) :
    Except ParseError (Option (String × Option String)) := do
  syntaxErrorIf (!yaml_object.isInstance .dict) "type of Top ds is not a map"
  let kind ← yaml_object.get "kind"
  if !object_kind.any fun s => kind.isStr s then return none
  let api_version ← yaml_object.get "apiVersion"
  if !(← api_version.has layer_keyword) then return none
  let valid_keys : List (String × KeyInfo) :=
    [("kind", ⟨1, some .str⟩), ("apiVersion", ⟨1, some .str⟩), ("metadata", ⟨1, some .dict⟩),
      ("spec", ⟨if spec_required then 1 else 0, some .dict⟩)]
  let status : List (String × KeyInfo) :=
    if "k8s".toList <:+: layer_keyword.toList then [("status", ⟨0, some .dict⟩)] else []
  checkFieldsValidity yaml_object kind.toStr (valid_keys ++ status) [("apiVersion", object_version)]
  let metadata ← yaml_object.get "metadata"
  checkMetadataValidity metadata
  let name ← metadata.get "name"
  let ns := if layer_keyword ≠ "calico" ∧ !(← metadata.has "namespace") then some "default"
    else match metadata.field "namespace" with
      | .str ns => some ns
      | _ => none
  return some (name.toStr, ns)

end Objects

end Nca.Parsers
