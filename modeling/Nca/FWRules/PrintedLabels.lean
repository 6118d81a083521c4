import Nca.FWRules.LabelFormulas
import Nca.FWRules.LabelGrouping

/-!
What is printed for the pods of some values of a label: the text of a formula that says of a pod
that each part of the key has a value that some of the combined values has for that part.
-/

namespace Nca.FWRules
open CoreDS Lib Lib.Python LabeledPeers ClusterInfo LabelExpr

section Clauses

variable {k : Str} {values all_values : Finset Str} {label : Str → Option Str}

/-- What `get_valid_values_expr_str` says. -/
def validLiteral (k : Str) (values complement_values : Finset Str)
    (ns_has_pods_without_label_k : Bool) : Literal :=
  if complement_values ≠ ∅ ∧ complement_values.card < values.card then
    if ns_has_pods_without_label_k then .hasNotIn k (complement_values.sort (· ≤ ·))
    else .notIn k (complement_values.sort (· ≤ ·))
  else .isIn k (values.sort (· ≤ ·))

/-- What `get_values_expr_str_per_simple_key` says, before it is sorted. -/
def literalsOf (k : Str) (values all_values : Finset Str) : Clause :=
  let valid_values := values.erase invalid_val
  let all_valid_values := all_values.erase invalid_val
  (if invalid_val ∈ values then [.lacks k] else []) ++
    if valid_values = ∅ then []
    else if valid_values = all_valid_values ∧ 1 < all_valid_values.card then [.has k]
    else [validLiteral k valid_values (all_valid_values \ valid_values) (invalid_val ∈ all_values)]

def clauseOf (k : Str) (values all_values : Finset Str) : Clause :=
  (literalsOf k values all_values).insertionSort fun x y => x.text ≤ y.text

theorem map_sorted {α : Type} (text : α → Str) (items : List α) :
    (items.insertionSort fun x y => text x ≤ text y).map text = sorted (items.map text) := by
  unfold sorted
  exact List.map_insertionSort _ _ text items fun _ _ _ _ => Iff.rfl

theorem getInvalidValueExprStr_text (simple : ':' ∉ k) :
    getInvalidValueExprStr k = (Literal.lacks k).text := by
  unfold getInvalidValueExprStr
  rw [splitKey_simple simple]
  simp [sorted, joinStr, Literal.text]

theorem getAllValidValuesExprStr_text (simple : ':' ∉ k) :
    getAllValidValuesExprStr k = (Literal.has k).text := by
  unfold getAllValidValuesExprStr
  rw [splitKey_simple simple]
  simp [sorted, joinStr, Literal.text]

theorem comparison_sort {equality containment : String} {values : Finset Str} :
    Literal.comparison equality containment (values.sort (· ≤ ·)) =
      if values.card = 1 then equality.toList ++ joinStr "," (values.sort (· ≤ ·))
      else containment.toList ++ joinStr "," (values.sort (· ≤ ·)) ++ [')'] := by
  have length : (values.sort (· ≤ ·)).length = values.card := Finset.length_sort _
  unfold Literal.comparison
  split
  case h_1 v single =>
    rw [single] at length
    have one : values.card = 1 := length.symm
    rw [if_pos one, single]
    simp [joinStr]
  case h_2 several =>
    rw [if_neg]
    intro single
    obtain ⟨v, shape⟩ := List.length_eq_one_iff.mp (length.trans single)
    exact several v shape

theorem containment_text {equality containment words : String} {shorter : Finset Str}
    (spaced : words.toList = " ".toList ++ containment.toList ++ " (".toList) :
    (if shorter.card = 1 then k ++ equality.toList ++ joinStr "," (shorter.sort (· ≤ ·))
      else k ++ " ".toList ++ containment.toList ++ " (".toList ++
        joinStr "," (shorter.sort (· ≤ ·)) ++ ")".toList) =
      k ++ Literal.comparison equality words (shorter.sort (· ≤ ·)) := by
  rw [comparison_sort, spaced]
  split
  case isTrue => exact List.append_assoc _ _ _
  case isFalse =>
    simp only [List.append_assoc]
    rfl

theorem getValidValuesExprStr_text {complement_values : Finset Str} {flag : Bool}
    (some : values ≠ ∅) : getValidValuesExprStr k values complement_values flag =
      (validLiteral k values complement_values flag).text := by
  unfold getValidValuesExprStr validLiteral
  rw [if_neg some]
  dsimp only
  by_cases complemented : complement_values ≠ ∅ ∧ complement_values.card < values.card
  · have spaced : " not in (".toList = " ".toList ++ "not in".toList ++ " (".toList := rfl
    obtain ⟨nonempty, fewer⟩ := complemented
    simp only [ne_eq, nonempty, not_false_eq_true, fewer, and_self, if_true, true_and,
      containment_text spaced]
    cases flag with
    | true =>
      have prefixed : ¬(hasStr k ++ " and ".toList = []) := by simp
      simp only [if_true, prefixed, not_false_eq_true, Literal.text, List.append_assoc]
    | false => simp only [Bool.false_eq_true, if_false, not_true_eq_false, Literal.text]
  · have spaced : " in (".toList = " ".toList ++ "in".toList ++ " (".toList := rfl
    simp only [complemented, false_and, if_false, ne_eq, not_true_eq_false, containment_text spaced,
      Literal.text]

theorem literalsOf_texts (simple : ':' ∉ k) :
    (if invalid_val ∈ values then [getInvalidValueExprStr k] else []) ++
      (if values.erase invalid_val = ∅ then []
      else if values.erase invalid_val = all_values.erase invalid_val ∧
          1 < (all_values.erase invalid_val).card then [getAllValidValuesExprStr k]
      else [getValidValuesExprStr k (values.erase invalid_val)
        (all_values.erase invalid_val \ values.erase invalid_val) (invalid_val ∈ all_values)]) =
      (literalsOf k values all_values).map Literal.text := by
  unfold literalsOf
  dsimp only
  rw [List.map_append, getInvalidValueExprStr_text simple, getAllValidValuesExprStr_text simple]
  congr 1
  · split <;> rfl
  · split
    case isTrue => rfl
    case isFalse some =>
      split
      case isTrue => rfl
      case isFalse => rw [getValidValuesExprStr_text some, List.map_singleton]

theorem getValuesExprStrPerSimpleKey_text {self : LabelExpr} (simple : ':' ∉ k)
    (found : Dict.get self.map_simple_keys_to_all_values k = some all_values) :
    self.getValuesExprStrPerSimpleKey k values =
      .ok (Formula.clauseText (clauseOf k values all_values)) := by
  have texts : (clauseOf k values all_values).map Literal.text =
      sorted ((literalsOf k values all_values).map Literal.text) := map_sorted Literal.text _
  have length : (clauseOf k values all_values).length = (literalsOf k values all_values).length :=
    List.length_insertionSort _ _
  unfold getValuesExprStrPerSimpleKey Formula.clauseText Formula.orText
  rw [found]
  simp only [pure_bind, literalsOf_texts simple, ← texts, length, List.length_map]
  rfl

theorem sort_nonempty (some : values ≠ ∅) : values.sort (· ≤ ·) ≠ [] := by
  intro nothing
  obtain ⟨v, member⟩ := Finset.nonempty_iff_ne_empty.mpr some
  have listed := (Finset.mem_sort (· ≤ ·)).mpr member
  rw [nothing] at listed
  exact absurd listed List.not_mem_nil

theorem validLiteral_wellFormed {complement_values : Finset Str} {flag : Bool}
    (name : k ≠ [] ∧ LabelText k) (some : values ≠ ∅) (texts : ∀ v ∈ values, LabelText v)
    (texts' : ∀ v ∈ complement_values, LabelText v) :
    (validLiteral k values complement_values flag).WellFormed := by
  have sorted {vs : Finset Str} (some : vs ≠ ∅) (texts : ∀ v ∈ vs, LabelText v) :
      (k ≠ [] ∧ LabelText k) ∧ vs.sort (· ≤ ·) ≠ [] ∧ ∀ v ∈ vs.sort (· ≤ ·), LabelText v :=
    ⟨name, sort_nonempty some, fun v member => texts v ((Finset.mem_sort _).mp member)⟩
  unfold validLiteral
  split
  case isTrue complemented => split <;> exact sorted complemented.1 texts'
  case isFalse => exact sorted some texts

theorem clauseOf_wellFormed (name : k ≠ [] ∧ LabelText k)
    (texts : ∀ v ∈ all_values, LabelText v ∨ v = invalid_val) (inside : values ⊆ all_values)
    (some : values ≠ ∅) : clauseOf k values all_values ≠ [] ∧
      ∀ literal ∈ clauseOf k values all_values, literal.WellFormed := by
  have valid : ∀ v ∈ all_values.erase invalid_val, LabelText v := by
    intro v member
    obtain ⟨other, member⟩ := Finset.mem_erase.mp member
    exact (texts v member).resolve_right other
  constructor
  · intro nothing
    obtain ⟨v, member⟩ := Finset.nonempty_iff_ne_empty.mpr some
    have empty : literalsOf k values all_values = [] := by
      have same := (List.perm_insertionSort (fun x y => x.text ≤ y.text)
        (literalsOf k values all_values)).symm
      exact List.perm_nil.mp (nothing ▸ same : List.Perm _ [])
    unfold literalsOf at empty
    by_cases marker : v = invalid_val
    · subst marker
      simp [member] at empty
    · have kept : values.erase invalid_val ≠ ∅ :=
        Finset.nonempty_iff_ne_empty.mp ⟨v, Finset.mem_erase.mpr ⟨marker, member⟩⟩
      simp only [kept, if_false, List.append_eq_nil_iff] at empty
      have others := empty.2
      split at others <;> exact absurd others (List.cons_ne_nil _ _)
  · intro literal member
    have listed := (List.mem_insertionSort _).mp member
    unfold literalsOf at listed
    cases List.mem_append.mp listed with
    | inl lacks =>
      split at lacks
      case isTrue =>
        rw [List.mem_singleton.mp lacks]
        exact name
      case isFalse => exact absurd lacks List.not_mem_nil
    | inr others =>
      split at others
      case isTrue => exact absurd others List.not_mem_nil
      case isFalse kept =>
        split at others
        case isTrue =>
          rw [List.mem_singleton.mp others]
          exact name
        case isFalse =>
          rw [List.mem_singleton.mp others]
          apply validLiteral_wellFormed name kept
          · intro v member
            exact valid v (Finset.erase_subset_erase _ inside member)
          · intro v member
            exact valid v (Finset.mem_sdiff.mp member).1

end Clauses

section Formulas

variable {self : LabelExpr}

/-- What `LabelExpr.__str__` says. -/
def LabelExpr.formula (self : LabelExpr) : Formula :=
  let all_valid_values := self.all_values.filter fun v => ¬ invalid_val <:+: v
  if self.values = all_valid_values ∧ 1 < all_valid_values.card then
    (sorted (splitKey self.key)).map fun k => [.has k]
  else
    let clauses := (splitKey self.key).zipIdx.map fun (k, index) =>
      clauseOf k (self.values.image fun val => (splitKey val).getD index [])
        ((Dict.get self.map_simple_keys_to_all_values k).getD ∅)
    clauses.insertionSort fun x y => Formula.clauseText x ≤ Formula.clauseText y

theorem mapM_returned {α β : Type} {f : α → Except Failure β} {g : α → β} {xs : List α}
    (each : ∀ x ∈ xs, f x = .ok (g x)) : xs.mapM f = .ok (xs.map g) := by
  induction xs with
  | nil => rfl
  | cons x rest ih =>
    obtain ⟨first, later⟩ := List.forall_mem_cons.mp each
    rw [List.mapM_cons, first, ok_bind, ih later]
    rfl

theorem text_literals (literals : List Literal) :
    Formula.text (literals.map fun literal => [literal]) = joinStr " and " (literals.map Literal.text) := by
  have clause (literal : Literal) : Formula.clauseText [literal] = literal.text := by
    simp [Formula.clauseText, Formula.orText, joinStr]
  unfold Formula.text
  split
  case h_1 only shape =>
    obtain ⟨literal, rfl, rfl⟩ := List.map_eq_singleton_iff.mp shape
    simp [Formula.orText, joinStr]
  case h_2 =>
    rw [List.map_map]
    congr 1
    exact List.map_congr_left fun literal _ => clause literal

theorem text_several {formula : Formula} (several : formula.length ≠ 1) :
    formula.text = joinStr " and " (formula.map Formula.clauseText) := by
  unfold Formula.text
  split
  case h_1 clause => exact absurd rfl several
  case h_2 => rfl

/-- The printed text is that of the formula. -/
theorem str_text
    (indexed : ∀ val ∈ self.values, (splitKey val).length = (splitKey self.key).length)
    (keyed : ∀ k ∈ splitKey self.key, ∃ all_values,
      Dict.get self.map_simple_keys_to_all_values k = some all_values)
    (wellFormed : self.formula.WellFormed) : self.str = .ok self.formula.text := by
  unfold str
  unfold LabelExpr.formula at wellFormed ⊢
  dsimp only at wellFormed ⊢
  split
  case isTrue =>
    have shape : (sorted (splitKey self.key)).map (fun k => [Literal.has k]) =
        ((sorted (splitKey self.key)).map Literal.has).map fun literal => [literal] := by
      rw [List.map_map]
      rfl
    rw [shape, text_literals, List.map_map]
    rfl
  case isFalse general =>
    rw [if_neg general] at wellFormed
    have each : ∀ part ∈ (splitKey self.key).zipIdx, (do
        let values_set_per_key ← self.valuesSetPerKey part.2
        self.getValuesExprStrPerSimpleKey part.1 values_set_per_key) =
        .ok (Formula.clauseText (clauseOf part.1
          (self.values.image fun val => (splitKey val).getD part.2 [])
          ((Dict.get self.map_simple_keys_to_all_values part.1).getD ∅))) := by
      rintro ⟨k, index⟩ member
      have at_index := List.mk_mem_zipIdx_iff_getElem?.mp member
      obtain ⟨bound, -⟩ := List.getElem?_eq_some_iff.mp at_index
      have part := List.mem_of_getElem? at_index
      obtain ⟨all_values, found⟩ := keyed k part
      have within : ∀ val ∈ self.values, index < (splitKey val).length := by
        intro val listed
        rw [indexed val listed]
        exact bound
      unfold valuesSetPerKey
      rw [if_pos within, pure_bind, getValuesExprStrPerSimpleKey_text (splitKey_parts part) found,
        found, Option.getD_some]
    have clauses (text : Clause → Str) :
        ((splitKey self.key).zipIdx.map fun part => text (clauseOf part.1
          (self.values.image fun val => (splitKey val).getD part.2 [])
          ((Dict.get self.map_simple_keys_to_all_values part.1).getD ∅))) =
        ((splitKey self.key).zipIdx.map fun part => clauseOf part.1
          (self.values.image fun val => (splitKey val).getD part.2 [])
          ((Dict.get self.map_simple_keys_to_all_values part.1).getD ∅)).map text := by
      rw [List.map_map]
      rfl
    rw [mapM_returned each, ok_bind, clauses]
    generalize (splitKey self.key).zipIdx.map (fun part => clauseOf part.1
      (self.values.image fun val => (splitKey val).getD part.2 [])
      ((Dict.get self.map_simple_keys_to_all_values part.1).getD ∅)) = formula at wellFormed ⊢
    cases formula with
    | nil => exact absurd rfl wellFormed.1
    | cons clause rest =>
      cases rest with
      | nil =>
        have literals := (wellFormed.2 clause List.mem_cons_self).2
        show Except.ok _ = Except.ok (Formula.orText clause)
        rw [clauseText_stripped literals]
      | cons other rest =>
        show Except.ok (joinStr " and " (sorted ((clause :: other :: rest).map Formula.clauseText))) = _
        rw [text_several, map_sorted]
        rw [List.length_insertionSort]
        simp

end Formulas

section Meaning

variable {K : Type} [LabeledPeers K] {p : K} {k v : Str} {ns : Option String}
  {all_peers : List K} {values all_values complement_values : Finset Str} {flag : Bool}
  {label : Str → Option Str}

theorem validLiteral_holds (value : label k = some v)
    (covered : v ∈ values ∨ v ∈ complement_values) (apart : Disjoint values complement_values) :
    (validLiteral k values complement_values flag).Holds label ↔ v ∈ values := by
  have complement : (∀ w ∈ complement_values.sort (· ≤ ·), label k ≠ some w) ↔ v ∈ values := by
    simp only [Finset.mem_sort, value, ne_eq, Option.some.injEq]
    constructor
    · intro outside
      exact covered.resolve_right fun inside => outside v inside rfl
    · intro inside w other same
      exact Finset.disjoint_left.mp apart inside (same ▸ other)
  unfold validLiteral
  split
  · split
    · show label k ≠ none ∧ _ ↔ _
      rw [complement, and_iff_right (by simp [value])]
    · exact complement
  · show (∃ w ∈ values.sort (· ≤ ·), label k = some w) ↔ _
    simp [value]

/-- A literal about valid values does not hold where the label is missing. -/
theorem validLiteral_missing (value : label k = none) (flagged : flag = true) :
    ¬(validLiteral k values complement_values flag).Holds label := by
  unfold validLiteral
  rw [flagged, if_pos rfl]
  split
  · exact fun holds => holds.1 value
  · rintro ⟨w, _, same⟩
    rw [value] at same
    exact absurd same (by simp)

/-- The values that the pods of a namespace have for a key without a colon. -/
def ValuesOf (all_peers : List K) (ns : Option String) (k : Str) (all_values : Finset Str) : Prop :=
  ∀ v, v ∈ all_values ↔ ∃ q ∈ all_peers, is_ip_block q = false ∧ peer_namespace q = ns ∧
    simpleValue all_peers q k = some v

theorem simpleValue_known (known : Known all_peers (peer_namespace p) k) :
    simpleValue all_peers p k = some ((labelOf p k).getD invalid_val) := by
  unfold simpleValue
  split
  case h_1 v label => rw [label, Option.getD_some]
  case h_2 label => rw [label, Option.getD_none, if_pos known]

/-- The literals hold of the pods that have one of the values. -/
theorem literalsOf_holds (kubernetes : KubernetesLabels all_peers)
    (valuesOf : ValuesOf all_peers ns k all_values) (known : Known all_peers ns k)
    (listed : p ∈ all_peers) (pod : is_ip_block p = false) (inside : peer_namespace p = ns) :
    (∃ literal ∈ literalsOf k values all_values, literal.Holds (labelOf p)) ↔
      ∃ v ∈ values, simpleValue all_peers p k = some v := by
  have value := simpleValue_known (inside ▸ known : Known all_peers (peer_namespace p) k)
  have has_all : (labelOf p k).getD invalid_val ∈ all_values :=
    (valuesOf _).mpr ⟨p, listed, pod, inside, value⟩
  rw [value]
  unfold literalsOf
  simp only [List.mem_append, or_and_right, exists_or]
  cases label : labelOf p k with
  | none =>
    rw [label, Option.getD_none] at has_all
    have lacks : (∃ literal ∈ if invalid_val ∈ values then [Literal.lacks k] else [],
        literal.Holds (labelOf p)) ↔ invalid_val ∈ values := by
      split
      case isTrue marked => simp [Literal.Holds, label, marked]
      case isFalse unmarked => simp [unmarked]
    have others : ¬∃ literal ∈ (if values.erase invalid_val = ∅ then []
        else if values.erase invalid_val = all_values.erase invalid_val ∧
          1 < (all_values.erase invalid_val).card then [Literal.has k]
        else [validLiteral k (values.erase invalid_val)
          (all_values.erase invalid_val \ values.erase invalid_val) (invalid_val ∈ all_values)]),
        literal.Holds (labelOf p) := by
      split
      case isTrue => simp
      case isFalse =>
        split
        case isTrue => simp [Literal.Holds, label]
        case isFalse => simp [validLiteral_missing label (decide_eq_true has_all)]
    rw [lacks, or_iff_left others]
    simp
  | some v =>
    rw [label, Option.getD_some] at has_all
    have valid : v ≠ invalid_val :=
      labelText_invalid (kubernetes p listed pod _ (labelOf_eq.mpr label)).2.2
    have lacks : ¬∃ literal ∈ if invalid_val ∈ values then [Literal.lacks k] else [],
        literal.Holds (labelOf p) := by
      split <;> simp [Literal.Holds, label]
    rw [or_iff_right lacks]
    simp only [Option.getD_some, Option.some.injEq, exists_eq_right']
    split
    case isTrue empty =>
      have outside : v ∉ values.erase invalid_val := empty ▸ Finset.notMem_empty v
      simp only [List.not_mem_nil, false_and, exists_false, false_iff]
      exact fun inside => outside (Finset.mem_erase.mpr ⟨valid, inside⟩)
    case isFalse =>
      split
      case isTrue all =>
        have inside : v ∈ values.erase invalid_val := by
          rw [all.1]
          exact Finset.mem_erase.mpr ⟨valid, has_all⟩
        simp [Literal.Holds, label, (Finset.mem_erase.mp inside).2]
      case isFalse =>
        have covered : v ∈ values.erase invalid_val ∨
            v ∈ all_values.erase invalid_val \ values.erase invalid_val := by
          simp [valid, has_all, em]
        have holds : (validLiteral k _ _ (decide (invalid_val ∈ all_values))).Holds (labelOf p) ↔ _ :=
          validLiteral_holds label covered Finset.disjoint_sdiff
        simp [holds, valid]

theorem clauseOf_holds (kubernetes : KubernetesLabels all_peers)
    (valuesOf : ValuesOf all_peers ns k all_values) (known : Known all_peers ns k)
    (listed : p ∈ all_peers) (pod : is_ip_block p = false) (inside : peer_namespace p = ns) :
    (∃ literal ∈ clauseOf k values all_values, literal.Holds (labelOf p)) ↔
      ∃ v ∈ values, simpleValue all_peers p k = some v := by
  rw [← literalsOf_holds kubernetes valuesOf known listed pod inside]
  unfold clauseOf
  simp only [List.mem_insertionSort]

theorem joinValues_invalid {tuple : List Str} (texts : ∀ v ∈ tuple, LabelText v ∨ v = invalid_val) :
    invalid_val <:+: joinValues tuple ↔ invalid_val ∈ tuple := by
  constructor
  · intro inside
    -- only the value of a missing label has this character
    have hash : '#' ∈ joinStr ":" tuple := inside.subset (by decide)
    obtain separator | ⟨v, member, hash⟩ := mem_joinStr hash
    · exact absurd separator (by decide)
    · cases texts v member with
      | inl text => exact absurd (text '#' hash) (by decide)
      | inr marker => exact marker ▸ member
  · intro member
    unfold joinValues
    induction tuple with
    | nil => exact absurd member List.not_mem_nil
    | cons v rest ih =>
      cases rest with
      | nil => simp [List.mem_singleton.mp member]
      | cons next rest =>
        rw [List.intercalate_cons_cons, List.append_assoc]
        cases List.mem_cons.mp member with
        | inl first =>
          rw [← first]
          exact (List.prefix_append _ _).isInfix
        | inr later =>
          have inner := ih (fun v member => texts v (List.mem_cons_of_mem _ member)) later
          exact inner.trans ((List.suffix_append _ _).trans (List.suffix_append _ _)).isInfix

end Meaning

section Parts

variable {K : Type} [LabeledPeers K] {p : K} {key k v : Str} {ns : Option String}
  {all_peers : List K} {values : Finset Str} {tuple : List Str}

/-- Each part of a tuple is the part of some value at its place. -/
def EachPart (values : Finset Str) (tuple : List Str) : Prop :=
  ∀ (index : Nat) (v : Str), tuple[index]? = some v →
    ∃ val ∈ values, (splitKey val)[index]? = some v

/-- A pod whose values for the parts of the key occur among the combined values has one of these. -/
def PartsDetermine (all_peers : List K) (ns_info : Finset (Option String)) (key : Str)
    (values : Finset Str) : Prop :=
  ∀ p ∈ all_peers, is_ip_block p = false → peer_namespace p ∈ ns_info →
    ∀ tuple, HasTuple all_peers p (splitKey key) tuple → EachPart values tuple →
      joinValues tuple ∈ values

theorem known_of_value (listed : p ∈ all_peers) (pod : is_ip_block p = false)
    (value : simpleValue all_peers p k = some v) : Known all_peers (peer_namespace p) k := by
  unfold simpleValue at value
  split at value
  case h_1 label => exact ⟨p, listed, pod, rfl, by simp [label]⟩
  case h_2 => exact (Option.ite_none_right_eq_some.mp value).1

theorem known_name (kubernetes : KubernetesLabels all_peers) (known : Known all_peers ns k) :
    k ≠ [] ∧ LabelText k := by
  obtain ⟨q, listed, pod, -, has⟩ := known
  obtain ⟨v, label⟩ := Option.ne_none_iff_exists'.mp has
  have names := kubernetes q listed pod _ (labelOf_eq.mpr label)
  exact ⟨names.1, names.2.1⟩

/-- A value is one of some pod of the namespace. -/
def SomePodHas (all_peers : List K) (ns : Option String) (key val : Str) : Prop :=
  ∃ q ∈ all_peers, is_ip_block q = false ∧ peer_namespace q = ns ∧
    HasTuple all_peers q (splitKey key) (splitKey val)

theorem hasTuple_known (has : SomePodHas all_peers ns key v) :
    ∀ k ∈ splitKey key, Known all_peers ns k := by
  obtain ⟨q, listed, pod, inside, tuple⟩ := has
  intro k part
  obtain ⟨w, -, value⟩ := forall₂_source tuple.flip part
  exact inside ▸ known_of_value listed pod value

theorem hasTuple_exists (known : ∀ k ∈ splitKey key, Known all_peers (peer_namespace p) k) :
    HasTuple all_peers p (splitKey key)
      ((splitKey key).map fun k => (labelOf p k).getD invalid_val) := by
  unfold HasTuple
  rw [List.forall₂_map_right_iff, List.forall₂_same]
  exact fun k part => simpleValue_known (known k part)

/-- A pod has the part of its tuple at each place. -/
theorem hasTuple_get {index : Nat} (has : HasTuple all_peers p (splitKey key) tuple)
    (at_key : (splitKey key)[index]? = some k) :
    ∃ v, tuple[index]? = some v ∧ simpleValue all_peers p k = some v := by
  obtain ⟨bound, rfl⟩ := List.getElem?_eq_some_iff.mp at_key
  have bound' : index < tuple.length := has.length_eq ▸ bound
  exact ⟨tuple[index], List.getElem?_eq_getElem bound', has.get bound bound'⟩

end Parts

section Formulas

variable {K : Type} [LabeledPeers K] {p : K} {k v : Str} {ns : Option String}
  {all_peers : List K} {tuple : List Str} {self : LabelExpr}

/-- A label expression as it is made for values that pods of a namespace have. -/
structure Made (all_peers : List K) (ns : Option String) (expr : LabelExpr) : Prop where
  nonempty : expr.values ≠ ∅
  listed : expr.values ⊆ expr.all_values
  all_values : ∀ val, val ∈ expr.all_values ↔ SomePodHas all_peers ns expr.key val
  parts : ∀ k ∈ splitKey expr.key, ∃ all_values,
    Dict.get expr.map_simple_keys_to_all_values k = some all_values ∧ ValuesOf all_peers ns k all_values

theorem made_known (made : Made all_peers ns self) : ∀ k ∈ splitKey self.key, Known all_peers ns k := by
  obtain ⟨val, member⟩ := Finset.nonempty_iff_ne_empty.mpr made.nonempty
  exact hasTuple_known ((made.all_values val).mp (made.listed member))

theorem made_indexed (made : Made all_peers ns self) :
    ∀ val ∈ self.values, (splitKey val).length = (splitKey self.key).length := by
  intro val member
  obtain ⟨q, -, -, -, tuple⟩ := (made.all_values val).mp (made.listed member)
  exact tuple.length_eq.symm

/-- The parts of the values at one place are values of the part of the key. -/
theorem made_image (made : Made all_peers ns self) {index : Nat} {all_values : Finset Str}
    (at_key : (splitKey self.key)[index]? = some k) (valuesOf : ValuesOf all_peers ns k all_values) :
    (self.values.image fun val => (splitKey val).getD index []) ⊆ all_values := by
  intro v member
  obtain ⟨val, listed, rfl⟩ := Finset.mem_image.mp member
  obtain ⟨q, topology, pod, inside, tuple⟩ := (made.all_values val).mp (made.listed listed)
  obtain ⟨v, found, value⟩ := hasTuple_get tuple at_key
  apply (valuesOf _).mpr
  exact ⟨q, topology, pod, inside, by simp [value, found]⟩

theorem splitKey_nonempty (key : Str) : splitKey key ≠ [] := List.splitOn_ne_nil ':' key

theorem made_wellFormed (kubernetes : KubernetesLabels all_peers) (made : Made all_peers ns self) :
    self.formula.WellFormed := by
  have known := made_known made
  unfold LabelExpr.formula
  dsimp only
  split
  case isTrue =>
    constructor
    · intro nothing
      have empty := List.map_eq_nil_iff.mp nothing
      have same := List.perm_insertionSort (· ≤ ·) (splitKey self.key)
      exact splitKey_nonempty self.key (List.perm_nil.mp ((empty ▸ same : List.Perm [] _).symm))
    · intro clause member
      obtain ⟨k, part, rfl⟩ := List.mem_map.mp member
      have name := known_name kubernetes (known k ((List.mem_insertionSort _).mp part))
      exact ⟨List.cons_ne_nil _ _, List.forall_mem_singleton.mpr name⟩
  case isFalse =>
    constructor
    · intro nothing
      have length := congrArg List.length nothing
      rw [List.length_insertionSort, List.length_map, List.length_zipIdx] at length
      exact splitKey_nonempty self.key (List.length_eq_zero_iff.mp length)
    · intro clause member
      obtain ⟨⟨k, index⟩, place, rfl⟩ := List.mem_map.mp ((List.mem_insertionSort _).mp member)
      have at_key := List.mk_mem_zipIdx_iff_getElem?.mp place
      have part := List.mem_of_getElem? at_key
      obtain ⟨all_values, found, valuesOf⟩ := made.parts k part
      dsimp only
      rw [found, Option.getD_some]
      apply clauseOf_wellFormed (known_name kubernetes (known k part))
      · intro v inside
        obtain ⟨q, listed, pod, -, value⟩ := (valuesOf v).mp inside
        exact simpleValue_text kubernetes listed pod value
      · exact made_image made at_key valuesOf
      · exact fun empty => made.nonempty (Finset.image_eq_empty.mp empty)

/-- The values with all their parts are those without the mark of a missing label. -/
theorem made_valid (kubernetes : KubernetesLabels all_peers) (made : Made all_peers ns self) {val : Str}
    (member : val ∈ self.all_values) : invalid_val <:+: val ↔ invalid_val ∈ splitKey val := by
  obtain ⟨q, listed, pod, -, tuple⟩ := (made.all_values val).mp member
  have texts : ∀ v ∈ splitKey val, LabelText v ∨ v = invalid_val := by
    intro v part
    obtain ⟨k, -, value⟩ := forall₂_source tuple part
    exact simpleValue_text kubernetes listed pod value
  have joined : joinValues (splitKey val) = val := List.intercalate_splitOn ':'
  rw [← joinValues_invalid texts, joined]

theorem joinValues_tuple (kubernetes : KubernetesLabels all_peers) (listed : p ∈ all_peers)
    (pod : is_ip_block p = false) {keys : List Str} (some : keys ≠ [])
    (has : HasTuple all_peers p keys tuple) : splitKey (joinValues tuple) = tuple := by
  apply splitKey_join (hasTuple_colon kubernetes listed pod has)
  intro empty
  rw [empty] at has
  exact some (List.forall₂_nil_right_iff.mp has)

theorem labelOf_valid (kubernetes : KubernetesLabels all_peers) (listed : p ∈ all_peers)
    (pod : is_ip_block p = false) (value : simpleValue all_peers p k = some v) :
    labelOf p k ≠ none ↔ v ≠ invalid_val := by
  unfold simpleValue at value
  split at value
  case h_1 w label =>
    obtain rfl := Option.some.inj value
    have text := (kubernetes p listed pod _ (labelOf_eq.mpr label)).2.2
    exact iff_of_true (by simp [label]) (labelText_invalid text)
  case h_2 label =>
    obtain ⟨-, same⟩ := Option.ite_none_right_eq_some.mp value
    exact iff_of_false (by simp [label]) (by simp [Option.some.inj same])

/-- All valid values: the labels of the parts are there. -/
theorem hasAll_holds (kubernetes : KubernetesLabels all_peers) (listed : p ∈ all_peers)
    (pod : is_ip_block p = false) {keys : List Str} (has : HasTuple all_peers p keys tuple) :
    Formula.Holds (labelOf p) ((sorted keys).map fun k => [.has k]) ↔ invalid_val ∉ tuple := by
  have holds : Formula.Holds (labelOf p) ((sorted keys).map fun k => [.has k]) ↔
      ∀ k ∈ keys, labelOf p k ≠ none := by
    simp [Formula.Holds, sorted, Literal.Holds]
  rw [holds]
  constructor
  · intro present missing
    obtain ⟨k, part, value⟩ := forall₂_source (forall₂_members has) missing
    exact (labelOf_valid kubernetes listed pod value.2).mp (present k part) rfl
  · intro valid k part
    obtain ⟨v, member, -, value⟩ := forall₂_source (forall₂_members has.flip) part
    exact (labelOf_valid kubernetes listed pod value).mpr fun same => valid (same ▸ member)

theorem eachPart_valid (kubernetes : KubernetesLabels all_peers) (made : Made all_peers ns self)
    (listed : p ∈ all_peers) (pod : is_ip_block p = false) (inside : peer_namespace p = ns)
    (has : HasTuple all_peers p (splitKey self.key) tuple)
    (all : self.values = self.all_values.filter fun v => ¬ invalid_val <:+: v) :
    EachPart self.values tuple ↔ invalid_val ∉ tuple := by
  have split := joinValues_tuple kubernetes listed pod (splitKey_nonempty _) has
  constructor
  · intro each missing
    obtain ⟨index, at_tuple⟩ := List.getElem?_of_mem missing
    obtain ⟨val, member, at_val⟩ := each index invalid_val at_tuple
    rw [all] at member
    obtain ⟨member, valid⟩ := Finset.mem_filter.mp member
    exact valid ((made_valid kubernetes made member).mpr (List.mem_of_getElem? at_val))
  · intro valid index v at_tuple
    have member : joinValues tuple ∈ self.all_values := by
      apply (made.all_values _).mpr
      refine ⟨p, listed, pod, inside, ?_⟩
      rw [split]
      exact has
    refine ⟨joinValues tuple, ?_, by rw [split]; exact at_tuple⟩
    rw [all]
    apply Finset.mem_filter.mpr ⟨member, ?_⟩
    rw [made_valid kubernetes made member, split]
    exact valid

/-- The clause for a part of the key says that the part of the tuple is that of some value. -/
theorem clause_holds (kubernetes : KubernetesLabels all_peers) (made : Made all_peers ns self)
    (listed : p ∈ all_peers) (pod : is_ip_block p = false) (inside : peer_namespace p = ns)
    {index : Nat} (at_key : (splitKey self.key)[index]? = some k)
    (value : simpleValue all_peers p k = some v) :
    (∃ literal ∈ clauseOf k (self.values.image fun val => (splitKey val).getD index [])
      ((Dict.get self.map_simple_keys_to_all_values k).getD ∅), literal.Holds (labelOf p)) ↔
      ∃ val ∈ self.values, (splitKey val)[index]? = some v := by
  have part := List.mem_of_getElem? at_key
  obtain ⟨all_values, found, valuesOf⟩ := made.parts k part
  obtain ⟨bound, -⟩ := List.getElem?_eq_some_iff.mp at_key
  rw [found, Option.getD_some,
    clauseOf_holds kubernetes valuesOf (made_known made k part) listed pod inside, value]
  simp only [Option.some.injEq, exists_eq_right', Finset.mem_image]
  apply exists_congr
  intro val
  apply and_congr_right
  intro member
  have bound' : index < (splitKey val).length := made_indexed made val member ▸ bound
  rw [List.getD_eq_getElem?_getD, List.getElem?_eq_getElem bound', Option.getD_some, Option.some.injEq]

/-- The formula says of a pod that each part of its tuple is the part of some value. -/
theorem formula_holds (kubernetes : KubernetesLabels all_peers) (made : Made all_peers ns self)
    (listed : p ∈ all_peers) (pod : is_ip_block p = false) (inside : peer_namespace p = ns)
    (has : HasTuple all_peers p (splitKey self.key) tuple) :
    self.formula.Holds (labelOf p) ↔ EachPart self.values tuple := by
  unfold LabelExpr.formula
  dsimp only
  split
  case isTrue all =>
    rw [hasAll_holds kubernetes listed pod has,
      eachPart_valid kubernetes made listed pod inside has all.1]
  case isFalse =>
    constructor
    · intro holds index v at_tuple
      obtain ⟨bound, -⟩ := List.getElem?_eq_some_iff.mp at_tuple
      have at_key := List.getElem?_eq_getElem (has.length_eq ▸ bound : index < (splitKey self.key).length)
      obtain ⟨w, at_tuple', value⟩ := hasTuple_get has at_key
      obtain rfl := Option.some.inj (at_tuple.symm.trans at_tuple')
      apply (clause_holds kubernetes made listed pod inside at_key value).mp
      apply holds
      rw [List.mem_insertionSort]
      exact List.mem_map.mpr ⟨(_, index), List.mk_mem_zipIdx_iff_getElem?.mpr at_key, rfl⟩
    · intro each clause member
      rw [List.mem_insertionSort] at member
      obtain ⟨⟨k, index⟩, place, rfl⟩ := List.mem_map.mp member
      have at_key := List.mk_mem_zipIdx_iff_getElem?.mp place
      obtain ⟨v, at_tuple, value⟩ := hasTuple_get has at_key
      exact (clause_holds kubernetes made listed pod inside at_key value).mpr (each index v at_tuple)

end Formulas

section Elements

variable {K : Type} [DecidableEq K] [LabeledPeers K] {p : K} {key : Str} {ns : Option String}
  {all_peers : List K} {allowed_labels : List Str} {values : Finset Str}

omit [DecidableEq K] [LabeledPeers K] in
theorem get_simpleKeys {cluster_info : ClusterInfo K} {k : Str} {ns_set : Finset (Option String)}
    (part : k ∈ splitKey key) :
    Dict.get (cluster_info.getMapOfSimpleKeysToAllValues key ns_set) k =
      some (cluster_info.getAllValuesSetForKeyPerNamespace k ns_set) := by
  have walk : ∀ (keys : List Str) (map : List (Str × Finset Str)),
      Dict.get (keys.foldl (fun map simple_key => Dict.set map simple_key
        (cluster_info.getAllValuesSetForKeyPerNamespace simple_key ns_set)) map) k =
        if k ∈ keys then some (cluster_info.getAllValuesSetForKeyPerNamespace k ns_set)
        else Dict.get map k := by
    intro keys
    induction keys with
    | nil => simp
    | cons first rest ih =>
      intro map
      rw [List.foldl_cons, ih, Dict.get_set]
      grind
  exact (walk (splitKey key) []).trans (if_pos part)

/-- The label expression of an element. -/
def exprOf (cluster_info : ClusterInfo K) (key : Str) (values : Finset Str) (ns : Option String) :
    LabelExpr :=
  ⟨key, values, cluster_info.getMapOfSimpleKeysToAllValues key {ns},
    cluster_info.getAllValuesSetForKeyPerNamespace key {ns}⟩

theorem exprOf_made (kubernetes : KubernetesLabels all_peers) (allowed : key ∈ allowed_labels)
    (nonempty : values ≠ ∅)
    (listed : values ⊆ (init all_peers allowed_labels).getAllValuesSetForKeyPerNamespace key {ns}) :
    Made all_peers ns (exprOf (init all_peers allowed_labels) key values ns) where
  nonempty := nonempty
  listed := listed
  all_values val := by
    show val ∈ (init all_peers allowed_labels).getAllValuesSetForKeyPerNamespace key {ns} ↔ _
    rw [mem_values kubernetes]
    simp only [mem_pods_labels_map kubernetes allowed]
    constructor
    · rintro ⟨q, ⟨⟨topology, pod⟩, tuple, has, same⟩, inside⟩
      refine ⟨q, topology, pod, inside, ?_⟩
      rw [same, joinValues_tuple kubernetes topology pod (splitKey_nonempty key) has]
      exact has
    · rintro ⟨q, topology, pod, inside, has⟩
      exact ⟨q, ⟨⟨topology, pod⟩, _, has, (List.intercalate_splitOn ':').symm⟩, inside⟩
  parts k part := by
    refine ⟨_, get_simpleKeys part, ?_⟩
    intro v
    rw [mem_values kubernetes]
    simp only [mem_pods_labels_map_part kubernetes allowed part]
    constructor
    · rintro ⟨q, ⟨⟨topology, pod⟩, value⟩, inside⟩
      exact ⟨q, topology, pod, inside, value⟩
    · rintro ⟨q, topology, pod, inside, value⟩
      exact ⟨q, ⟨⟨topology, pod⟩, value⟩, inside⟩

theorem mem_element (kubernetes : KubernetesLabels all_peers) (allowed : key ∈ allowed_labels)
    {tuple : List Str} (listed : p ∈ all_peers) (pod : is_ip_block p = false)
    (inside : peer_namespace p = ns) (has : HasTuple all_peers p (splitKey key) tuple) :
    p ∈ FWRuleElement.getPodsSet (init all_peers allowed_labels)
      (.podLabels (exprOf (init all_peers allowed_labels) key values ns) {ns}) ↔
      joinValues tuple ∈ values := by
  have in_ns : p ∈ SetDict.find (init all_peers allowed_labels).ns_dict ns :=
    mem_ns_dict.mpr ⟨mem_allPods.mpr ⟨by rw [init_all_peers]; exact listed, pod⟩, inside⟩
  simp only [FWRuleElement.getPodsSet, FWRuleElement.nsPodsSet, exprOf, Finset.mem_biUnion,
    Finset.mem_inter, mem_pods_labels_map kubernetes allowed, Finset.mem_singleton, exists_eq_left,
    in_ns, and_true]
  constructor
  · rintro ⟨val, member, _, tuple', has', same⟩
    rw [hasTuple_unique has has', ← same]
    exact member
  · intro member
    exact ⟨_, member, ⟨listed, pod⟩, tuple, has, rfl⟩

/-- The text is exact when the parts of the values determine them. -/
theorem exprOf_exact (kubernetes : KubernetesLabels all_peers) (allowed : key ∈ allowed_labels)
    (nonempty : values ≠ ∅)
    (listed : values ⊆ (init all_peers allowed_labels).getAllValuesSetForKeyPerNamespace key {ns}) :
    ∃ text, (exprOf (init all_peers allowed_labels) key values ns).str = .ok text ∧
      ((∀ p ∈ all_peers, is_ip_block p = false → peer_namespace p ∈ ({ns} : Finset (Option String)) →
        (Says text (labelOf p) ↔ p ∈ FWRuleElement.getPodsSet (init all_peers allowed_labels)
          (.podLabels (exprOf (init all_peers allowed_labels) key values ns) {ns}))) ↔
        PartsDetermine all_peers {ns} key values) := by
  have made := exprOf_made kubernetes allowed nonempty listed
  have wellFormed := made_wellFormed kubernetes made
  have text := str_text (made_indexed made) (fun k part => by
    obtain ⟨all_values, found, -⟩ := made.parts k part
    exact ⟨all_values, found⟩) wellFormed
  refine ⟨_, text, ?_⟩
  have meaning : ∀ p ∈ all_peers, is_ip_block p = false → peer_namespace p = ns →
      ∀ tuple, HasTuple all_peers p (splitKey key) tuple →
      (Says (Formula.text (LabelExpr.formula (exprOf (init all_peers allowed_labels) key values ns)))
        (labelOf p) ↔ EachPart values tuple) := by
    intro p topology pod inside tuple has
    apply Iff.trans _ (formula_holds kubernetes made topology pod inside has)
    unfold Says
    rw [readFormula_text wellFormed]
    simp only [Option.some.injEq, exists_eq_left']
  constructor
  · intro exact_pods p topology pod inside tuple has each
    apply (mem_element kubernetes allowed topology pod (Finset.mem_singleton.mp inside) has).mp
    apply (exact_pods p topology pod inside).mp
    exact (meaning p topology pod (Finset.mem_singleton.mp inside) tuple has).mpr each
  · intro determine p topology pod inside
    have same := Finset.mem_singleton.mp inside
    have has := hasTuple_exists (same ▸ made_known made :
      ∀ k ∈ splitKey key, Known all_peers (peer_namespace p) k)
    rw [meaning p topology pod same _ has, mem_element kubernetes allowed topology pod same has]
    constructor
    · exact determine p topology pod inside _ has
    · intro member index v at_tuple
      refine ⟨_, member, ?_⟩
      rw [joinValues_tuple kubernetes topology pod (splitKey_nonempty key) has]
      exact at_tuple

omit [DecidableEq K] in
/-- The text for a key without a colon is exact. -/
theorem partsDetermine_simple (ns_info : Finset (Option String)) (simple : ':' ∉ key)
    (single : ∀ val ∈ values, ':' ∉ val) : PartsDetermine all_peers ns_info key values := by
  intro p _ _ _ tuple has each
  rw [splitKey_simple simple] at has
  cases has with
  | cons value rest =>
    cases rest
    obtain ⟨val, member, at_val⟩ := each 0 _ rfl
    rw [splitKey_simple (single val member)] at at_val
    obtain rfl := Option.some.inj at_val
    simpa [joinValues] using member

/-- Every element that label grouping makes is printed, and the text says which pods it has exactly
when the parts of its values determine them. -/
theorem printedElement_exact (all_peers : List K) (allowed_labels : List Str)
    (fwRulesGroupByLabelSinglePod : Bool) (pods_set : Finset K) (element : LabelExpr)
    (ns_info : Finset (Option String)) (kubernetes : KubernetesLabels all_peers)
    (pods : ∀ p ∈ pods_set, p ∈ (init all_peers allowed_labels).allPods)
    (grouped : .podLabels element ns_info ∈ createFwElementsByPodsGroupingByLabels
      (init all_peers allowed_labels) fwRulesGroupByLabelSinglePod pods_set) :
    ∃ text, element.str = .ok text ∧
      ((∀ p ∈ all_peers, is_ip_block p = false → peer_namespace p ∈ ns_info →
        (Says text (labelOf p) ↔ p ∈ FWRuleElement.getPodsSet (init all_peers allowed_labels)
          (.podLabels element ns_info))) ↔
        PartsDetermine all_peers ns_info element.key element.values) := by
  have groups := getPodsGroupingByLabelsMain_grouped fwRulesGroupByLabelSinglePod pods
  have chosen : .podLabels element ns_info ∈ (getPodsGroupingByLabelsMain (init all_peers allowed_labels)
      fwRulesGroupByLabelSinglePod pods_set ∅).1.map
        fun group => podLabelsElement (init all_peers allowed_labels) group.1 {group.2} := by
    unfold createFwElementsByPodsGroupingByLabels at grouped
    dsimp only at grouped
    split at grouped
    case isTrue => exact grouped
    case isFalse =>
      cases List.mem_append.mp grouped with
      | inl listed => exact listed
      | inr last => simp at last
  obtain ⟨⟨rep, ns⟩, listed, same⟩ := List.mem_map.mp chosen
  have covers := groups.covers _ listed
  obtain ⟨rfl, rfl⟩ := FWRuleElement.podLabels.inj same
  have allowed := covers.allowed
  rw [init_allowed_labels] at allowed
  exact exprOf_exact kubernetes allowed covers.nonempty covers.values

/-- A pod with two labels. -/
def labeledPod (name a b : String) : TopologyPeer :=
  ⟨name, some "default", [("a".toList, a.toList), ("b".toList, b.toList)], false,
    (by simp [Dict.keys])⟩

/-- The two pods to group have the combined values `1:1` and `2:2`, the third pod has `1:2`. -/
def diagonalPods : List TopologyPeer :=
  [labeledPod "first" "1" "1", labeledPod "second" "2" "2", labeledPod "third" "1" "2"]

def diagonalExpr : LabelExpr :=
  exprOf (init diagonalPods ["a:b".toList]) "a:b".toList {"2:2".toList, "1:1".toList} (some "default")

theorem diagonalPods_kubernetes : KubernetesLabels diagonalPods := by
  intro peer member _ label listed
  have each : (diagonalPods.all fun peer => (labels peer).all fun label =>
      !label.1.isEmpty && label.1.all labelChar && label.2.all labelChar) = true := by decide +kernel
  have checked := List.all_eq_true.mp (List.all_eq_true.mp each peer member) label listed
  simpa [LabelText, and_assoc] using checked

theorem diagonalPods_exact : ∃ text, diagonalExpr.str = .ok text ∧
    ((∀ p ∈ diagonalPods, is_ip_block p = false →
      peer_namespace p ∈ ({some "default"} : Finset (Option String)) →
      (Says text (labelOf p) ↔ p ∈ FWRuleElement.getPodsSet (init diagonalPods ["a:b".toList])
        (.podLabels diagonalExpr {some "default"}))) ↔
      PartsDetermine diagonalPods {some "default"} diagonalExpr.key diagonalExpr.values) :=
  printedElement_exact diagonalPods ["a:b".toList] false
    {labeledPod "first" "1" "1", labeledPod "second" "2" "2"} diagonalExpr {some "default"}
    diagonalPods_kubernetes
    (by
      simp only [mem_allPods, init_all_peers]
      decide +kernel)
    (List.mem_singleton.mpr (by rfl))

/-- The printed text admits the pod with a value of each, which the element does not have. -/
theorem diagonalPods_printed : ∃ element ns_info,
    .podLabels element ns_info ∈ createFwElementsByPodsGroupingByLabels
      (init diagonalPods ["a:b".toList]) false {labeledPod "first" "1" "1", labeledPod "second" "2" "2"} ∧
    element.str = .ok "has(a) and has(b)".toList ∧ peer_namespace (labeledPod "third" "1" "2") ∈ ns_info ∧
    Says "has(a) and has(b)".toList (labelOf (labeledPod "third" "1" "2")) ∧
    labeledPod "third" "1" "2" ∉ FWRuleElement.getPodsSet (init diagonalPods ["a:b".toList])
      (.podLabels element ns_info) := by
  have shape : readFormula "has(a) and has(b)".toList = some [[.has "a".toList], [.has "b".toList]] := by
    decide +kernel
  refine ⟨diagonalExpr, {some "default"}, List.mem_singleton.mpr (by rfl), by decide +kernel,
    by decide +kernel, ⟨_, shape, ?_⟩, by decide +kernel⟩
  simp [Formula.Holds, Literal.Holds, labelOf, labels, labeledPod, Dict.get]

end Elements

end Nca.FWRules
