import Nca.Parsers.IngressHosts
import Nca.Parsers.IstioGatewayPolicyGenerator

/-!
The requests that an HTTP route matches. The items of its match are alternatives, each with a
condition on the path and one on the method; the cube of the route has the paths of all items with
the methods of all items.
-/

namespace Nca.Parsers
open CoreDS Lib MinDFA Resources IstioVirtualServiceYamlParser

section

variable (D : Type) [MinDFA D] (re_match : Str → Str → Bool)

/-- The items of the match of a route; none if it is absent or empty. -/
def matchItems (route : Yaml) : List Yaml := (route.field "match").toList

/-- The item has a condition on the path, and its automaton has the path. -/
def InUri (item : Yaml) (path : Str) : Prop :=
  ∃ uri_dfa : D, parseUri re_match item = .ok (some uri_dfa) ∧ path ∈ uri_dfa

/-- The method is one of those of the item if the item names any. -/
def MethodAdmits (item : Yaml) (method : HttpMethod) : Prop :=
  ∀ methods, parseMethod D re_match item = .ok (some methods) → method ∈ methods

/-- Both conditions of the item hold, those that it has. -/
def ItemAdmits (item : Yaml) (path : Str) (method : HttpMethod) : Prop :=
  (∀ uri_dfa : D, parseUri re_match item = .ok (some uri_dfa) → path ∈ uri_dfa) ∧
  MethodAdmits D re_match item method

/-- A route without items matches all requests, else some item matches. -/
def RouteAdmits (route : Yaml) (path : Str) (method : HttpMethod) : Prop :=
  matchItems route = [] ∨ ∃ item ∈ matchItems route, ItemAdmits D re_match item path method

/-- The method is collected of the item: a condition that no method meets is dropped. -/
def Permits (item : Yaml) (method : HttpMethod) : Prop :=
  ∀ methods, parseMethod D re_match item = .ok (some methods) → methods ≠ ∅ → method ∈ methods

/-- The path is one of those of the items if the items have any. -/
def PathOf (items : List Yaml) (path : Str) : Prop :=
  (∃ item ∈ items, ∃ other, InUri D re_match item other) →
    ∃ item ∈ items, InUri D re_match item path

/-- The items lose nothing when their paths and their methods are collected apart: an item without
a condition on the path keeps all paths, and the path of one item with the method of another one
match some item. -/
structure Separable (items : List Yaml) : Prop where
  kept : ∀ item ∈ items, (∀ uri_dfa : D, parseUri re_match item ≠ .ok (some uri_dfa)) →
    ∀ path method, IsPath path → MethodAdmits D re_match item method → PathOf D re_match items path
  exchange : ∀ item ∈ items, ∀ path method, IsPath path → PathOf D re_match items path →
    Permits D re_match item method → ∃ other ∈ items, ItemAdmits D re_match other path method

end

variable {E D : Type} [MinDFA D] {re_match : Str → Str → Bool} {vs : VirtualService E D}
  {route item : Yaml} {start result : Route E D} {path : Str} {method : HttpMethod}

section Collected

/-- What the items that are processed leave in the route. -/
structure Collected (re_match : Str → Str → Bool) (items : List Yaml) (result : Route E D) : Prop where
  paths : ∀ path, OptMem result.uri_dfa path ↔ ∃ item ∈ items, InUri D re_match item path
  methods : ∀ method, (∃ methods, result.methods = some methods ∧ method ∈ methods) ↔
    ∃ item ∈ items, Permits D re_match item method

theorem addUri_paths {uri_dfa : Option D} : OptMem (addUri result uri_dfa).uri_dfa path ↔
    OptMem result.uri_dfa path ∨ OptMem uri_dfa path := by
  unfold addUri
  cases found : ifNonEmpty uri_dfa with
  | none =>
    have empty : ¬ OptMem uri_dfa path := by
      rintro ⟨dfa, rfl, member⟩
      rw [ifNonEmpty_of_mem member] at found
      cases found
    simp [empty]
  | some dfa =>
    obtain rfl := Option.eq_some_of_filter_eq_some found
    show OptMem (some (addDfa result.uri_dfa dfa)) path ↔ _
    simp [OptMem, mem_addDfa]

theorem addUri_methods {uri_dfa : Option D} : (addUri result uri_dfa).methods = result.methods := by
  unfold addUri
  cases ifNonEmpty uri_dfa <;> rfl

theorem addMethodsOrAll_methods {methods : Option MethodSet} :
    (∃ found, (addMethodsOrAll result methods).methods = some found ∧ method ∈ found) ↔
      (∃ found, result.methods = some found ∧ method ∈ found) ∨
        ∀ named, methods = some named → named ≠ ∅ → method ∈ named := by
  have added : method ∈ (methods.filter (· ≠ ∅)).getD allMethods ↔
      ∀ named, methods = some named → named ≠ ∅ → method ∈ named := by
    cases methods with
    | none => simp [mem_allMethods]
    | some named => by_cases empty : named = ∅ <;> simp [empty, Option.filter, mem_allMethods]
  rw [← added]
  show (∃ found, some (result.methods.getD ∅ ∪ _) = some found ∧ method ∈ found) ↔ _
  cases result.methods <;> simp

theorem parseMatchItem_collected {items : List Yaml} {next : Route E D}
    (before : Collected re_match items result)
    (parsed : parseMatchItem re_match vs result item = .ok next) :
    Collected re_match (items ++ [item]) next := by
  unfold parseMatchItem at parsed
  obtain ⟨_, _, parsed⟩ := bind_ok.mp parsed
  obtain ⟨uri_dfa, uri, parsed⟩ := bind_ok.mp parsed
  obtain ⟨methods, named, parsed⟩ := bind_ok.mp parsed
  obtain ⟨gateway_names, _, parsed⟩ := bind_ok.mp parsed
  obtain rfl := Except.ok.inj parsed
  have inUri : ∀ path, InUri D re_match item path ↔ OptMem uri_dfa path := by
    simp [InUri, OptMem, uri]
  have permits : ∀ method, Permits D re_match item method ↔
      ∀ found, methods = some found → found ≠ ∅ → method ∈ found := by
    simp [Permits, named]
  constructor
  · intro path
    show OptMem (addUri result uri_dfa).uri_dfa path ↔ _
    rw [addUri_paths, before.paths, ← inUri]
    simp only [List.mem_append, List.mem_singleton, or_and_right, exists_or, exists_eq_left]
  · intro method
    show (∃ found, (addMethodsOrAll (addUri result uri_dfa) methods).methods = some found ∧
      method ∈ found) ↔ _
    rw [addMethodsOrAll_methods, addUri_methods, before.methods, ← permits]
    simp only [List.mem_append, List.mem_singleton, or_and_right, exists_or, exists_eq_left]

/-- A match that is accepted is a list of items. -/
theorem parseHttpMatchRequest_ok
    (parsed : parseHttpMatchRequest re_match vs route start = .ok result) :
    (matchItems route).foldlM (parseMatchItem re_match vs) start = .ok result := by
  unfold parseHttpMatchRequest at parsed
  obtain ⟨value, read, parsed⟩ := bind_ok.mp parsed
  obtain ⟨_, field⟩ := Yaml.get_ok.mp read
  rw [matchItems, field]
  by_cases given : value.truthy = true
  · rw [given, Bool.not_true, if_neg Bool.false_ne_true] at parsed
    obtain ⟨items, iterated, parsed⟩ := bind_ok.mp parsed
    -- the keys of a dictionary and the characters of a string are no match items
    have noText : ∀ s rest, items ≠ .str s :: rest := by
      rintro s rest rfl
      rw [List.foldlM_cons] at parsed
      obtain ⟨_, first, _⟩ := bind_ok.mp parsed
      unfold parseMatchItem at first
      obtain ⟨_, checked, _⟩ := bind_ok.mp first
      obtain ⟨_, dict, _⟩ := checkFieldsValidity_ok.mp checked
      cases dict
    cases value with
    | list found =>
      obtain rfl := Except.ok.inj iterated
      exact parsed
    | dict entries =>
      obtain rfl := Except.ok.inj iterated
      cases entries with
      | nil => cases given
      | cons entry rest => exact (noText _ _ rfl).elim
    | str s =>
      obtain rfl := Except.ok.inj iterated
      cases chars : s.toList with
      | nil =>
        rw [Yaml.truthy, decide_eq_true_iff] at given
        exact (given (String.toList_eq_nil_iff.mp chars)).elim
      | cons c rest =>
        rw [chars] at noText
        exact (noText _ _ rfl).elim
    | _ => cases iterated
  · rw [Bool.not_eq_true] at given
    rw [given] at parsed
    have none : value.toList = [] := by
      cases value with
      | list items =>
        cases items with
        | nil => rfl
        | cons item rest => cases given
      | _ => rfl
    rw [none]
    exact parsed

theorem collected_of_parsed (parsed : parseHttpMatchRequest re_match vs route {} = .ok result) :
    Collected re_match (matchItems route) result := by
  have start : Collected (E := E) (D := D) re_match [] {} := by
    constructor
    · simp [OptMem]
    · simp
  exact foldlM_ok (Collected re_match) start
    (fun _ _ _ _ before stepped => parseMatchItem_collected before stepped)
    (parseHttpMatchRequest_ok parsed)

end Collected

section Cube

variable {items : List Yaml}

theorem exists_permits (item : Yaml) : ∃ method, Permits D re_match item method := by
  by_cases named : ∃ methods, parseMethod D re_match item = .ok (some methods) ∧ methods ≠ ∅
  · obtain ⟨methods, read, nonEmpty⟩ := named
    obtain ⟨method, inside⟩ := Finset.nonempty_iff_ne_empty.mpr nonEmpty
    refine ⟨method, fun other read' _ => ?_⟩
    rw [read] at read'
    obtain rfl := Option.some.inj (Except.ok.inj read')
    exact inside
  · exact ⟨.GET, fun methods read nonEmpty => absurd ⟨methods, read, nonEmpty⟩ named⟩

theorem permits_of_admits (admits : MethodAdmits D re_match item method) :
    Permits D re_match item method := fun methods read _ => admits methods read

/-- The cube has the requests for a path of the items with a method of the items. -/
theorem cube_admits (collected : Collected re_match items result) (nonEmpty : items ≠ []) :
    (initRouteConnCube result).Admits path method ↔
      PathOf D re_match items path ∧ ∃ item ∈ items, Permits D re_match item method := by
  have paths : (∀ paths, ifNonEmpty result.uri_dfa = some paths → path ∈ paths) ↔
      PathOf D re_match items path := by
    unfold PathOf
    have some : (∃ item ∈ items, ∃ other, InUri D re_match item other) ↔
        ∃ other, OptMem result.uri_dfa other := by
      simp only [collected.paths]
      rw [exists_comm]
      simp
    rw [some, ← collected.paths]
    constructor
    · rintro each ⟨other, dfa, found, member⟩
      rw [found, ifNonEmpty_of_mem member] at each
      exact ⟨dfa, found, each dfa rfl⟩
    · intro within paths found
      rw [ifNonEmpty, Option.filter_eq_some_iff] at found
      obtain ⟨found, truth⟩ := found
      obtain ⟨other, member⟩ := ExactSet.bool_iff.mp truth
      obtain ⟨dfa, found', inside⟩ := within ⟨other, paths, found, member⟩
      rwa [Option.some.inj (found.symm.trans found')]
  have methods : (∀ methods, result.methods.filter (· ≠ ∅) = some methods → method ∈ methods) ↔
      ∃ item ∈ items, Permits D re_match item method := by
    rw [← collected.methods]
    obtain ⟨item, among⟩ := List.exists_mem_of_ne_nil items nonEmpty
    obtain ⟨other, permitted⟩ : ∃ method, Permits D re_match item method := exists_permits item
    obtain ⟨all, found, inside⟩ := (collected.methods other).mpr ⟨item, among, permitted⟩
    rw [found]
    have proper : all ≠ ∅ := Finset.ne_empty_of_mem inside
    simp [Option.filter, proper]
  exact and_congr paths methods

/-- The condition of a match item that a field has exactly a value. -/
def exactly (attr_name value : String) : String × Yaml :=
  (attr_name, .dict [("exact", .str value)])

/-- Reading a shop, and writing to its admin page. -/
def readOrAdmin : Yaml :=
  .dict [("match", .list
    [.dict [exactly "uri" "/shop", exactly "method" "GET"],
      .dict [exactly "uri" "/admin", exactly "method" "POST"]])]

/-- What `re.match` does with an expression without operators. -/
def plainMatch (regex text : Str) : Bool := regex.isPrefixOf text

def shopService : VirtualService Unit WordSet := { name := "shop", «namespace» := "default" }

end Cube

end Nca.Parsers
