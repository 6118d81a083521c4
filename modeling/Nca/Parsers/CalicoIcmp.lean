import Nca.Parsers.CalicoRules

/-!
The ICMP data of Calico rules, compared with the connections that `icmp` and `notICMP` describe.
-/

namespace Nca.Parsers.CalicoPolicyYamlParser
open CoreDS Lib NetworkConfig Resources K8sPolicyYamlParser

section Meaning

/-- A type with an optional code; without a code, every code is meant. -/
structure IcmpItem where
  type : Int
  code : Option Int := none
  deriving DecidableEq, Repr

/-- The item that an `icmp` or a `notICMP` field describes. -/
def icmpItem (icmp_data : Yaml) : Option IcmpItem :=
  if icmp_data.isNull then none
  else some ⟨(asNumber (icmp_data.field "type")).getD 0, asNumber (icmp_data.field "code")⟩

/-- The dictionary has a type and possibly a code, both in their ranges, or is missing. -/
def IcmpValid (icmp_data : Yaml) : Prop :=
  icmp_data = .null ∨ ∃ entries, icmp_data = .dict entries ∧
    (∀ key ∈ Dict.keys entries, key = "type" ∨ key = "code") ∧
    (∃ type, asNumber (icmp_data.field "type") = some type ∧ 0 ≤ type ∧ type ≤ 254) ∧
    (icmp_data.field "code" = .null ∨
      ∃ code, asNumber (icmp_data.field "code") = some code ∧ 0 ≤ code ∧ code ≤ 255)

def IcmpItem.Matches (item : IcmpItem) (type code : Int) : Prop :=
  type = item.type ∧ ∀ own, item.code = some own → code = own

/-- The item matches whatever the other one matches. -/
def IcmpItem.Covers (item other : IcmpItem) : Prop :=
  item.type = other.type ∧ (item.code = none ∨ item.code = other.code)

/-- Neither the type nor the code is zero. -/
def IcmpItem.Proper (item : IcmpItem) : Prop := item.type ≠ 0 ∧ item.code ≠ some 0

/-- The items that the code reads as they are meant: none of the numbers that make a difference is
zero, and the negated item does not cover the other one. -/
def IcmpRead : Option IcmpItem → Option IcmpItem → Prop
  | none, none => True
  | some item, none => item.Proper
  | none, some negated => negated.Proper
  | some item, some negated => item.Proper ∧ ¬ negated.Covers item ∧
      (item.Covers negated → negated.Proper)

variable {P E κ : Type} [RuleProperties P E κ]

/-- The connection is one of the protocol and the peers that the items describe. -/
def IcmpMatches (P : Type) {E κ : Type} [RuleProperties P E κ] (icmp not_icmp : Option IcmpItem)
    (protocol : Fin 256) (src_pods dst_pods : PeerSet E) (x : Flow E κ) : Prop :=
  x.src ∈ src_pods ∧ x.dst ∈ dst_pods ∧ x.protocol = protocol ∧
  (∀ item, icmp = some item → item.Matches (icmp_type P x.rest) (icmp_code P x.rest)) ∧
  ∀ item, not_icmp = some item → ¬ item.Matches (icmp_type P x.rest) (icmp_code P x.rest)

end Meaning

section Checked

variable {icmp_data not_icmp_data : Yaml} {dict_name : String}

theorem icmpField_ok {key : String} (valid : IcmpValid icmp_data) :
    icmpField icmp_data key = .ok (icmp_data.field key) := by
  rcases valid with rfl | ⟨entries, rfl, _⟩ <;> rfl

theorem validateByDomain_ok {value : Yaml} {number last : Int} {value_name : String}
    (read : asNumber value = some number) (inside : 0 ≤ number ∧ number ≤ last) :
    validateByDomain value last value_name = .ok none := by
  rw [validateByDomain, read]
  exact if_pos inside

theorem isNull_of_number {value : Yaml} {number : Int} (read : asNumber value = some number) :
    value.isNull = false := by
  cases value <;> first | rfl | cases read

theorem checkIcmpData_ok (valid : IcmpValid icmp_data) : checkIcmpData icmp_data dict_name = .ok () := by
  rcases valid with rfl | ⟨entries, rfl, known, ⟨type, typeRead, inType⟩, code⟩
  · rfl
  · have fields : checkFieldsValidity (.dict entries) dict_name [("type", ⟨0, none⟩), ("code", ⟨0, none⟩)] =
        .ok () := by
      rw [checkFieldsValidity_ok]
      refine ⟨entries, rfl, ?_, ?_⟩
      · intro entry listed
        rcases List.mem_cons.mp listed with rfl | listed
        · constructor <;> simp [Dict.get]
        · rw [List.mem_singleton.mp listed]
          constructor <;> simp [Dict.get]
      · intro key listed
        rcases known key listed with rfl | rfl <;> decide
    have typed := isNull_of_number typeRead
    have message : checkIcmpCodeTypeValidity ((Yaml.dict entries).field "type")
        ((Yaml.dict entries).field "code") = .ok none := by
      unfold checkIcmpCodeTypeValidity
      rw [typed, Bool.and_false, if_neg (by decide), validateByDomain_ok typeRead inType]
      rcases code with null | ⟨code, codeRead, inCode⟩
      · rw [null]
        rfl
      · rw [ok_bind]
        dsimp only
        rw [isNull_of_number codeRead, validateByDomain_ok codeRead inCode]
        rfl
    unfold checkIcmpData
    rw [if_neg (by simp [Yaml.isNull]), fields, ok_bind, message]
    rfl

end Checked

section Items

variable {item negated : IcmpItem} {type code : Int}

/-- A type and a code that are not zero are looked at. -/
def IcmpItem.Reads (item : IcmpItem) (type code : Int) : Prop :=
  item.type ≠ 0 → type = item.type ∧ ∀ own, item.code = some own → own ≠ 0 → code = own

/-- The types and codes that the branches of the parser leave. -/
def IcmpTaken : Option IcmpItem → Option IcmpItem → Int → Int → Prop
  | none, none, _, _ => True
  | some item, none, type, code => item.Reads type code
  | none, some negated, type, code => ¬ negated.Reads type code
  | some item, some negated, type, code => item.Reads type code ∧
      (item.type = negated.type → item.code ≠ negated.code → item.code = none →
        ¬ negated.Reads type code)

def IcmpMeant (icmp not_icmp : Option IcmpItem) (type code : Int) : Prop :=
  (∀ item, icmp = some item → item.Matches type code) ∧
  ∀ item, not_icmp = some item → ¬ item.Matches type code

/-- The item is in the ranges of types and codes. -/
def IcmpItem.InRange (item : IcmpItem) : Prop :=
  (0 ≤ item.type ∧ item.type ≤ 254) ∧ ∀ own, item.code = some own → 0 ≤ own ∧ own ≤ 255

/-- A property of all types and codes that there are. -/
def ForAllIcmp (holds : Int → Int → Prop) : Prop :=
  ∀ type code, 0 ≤ type ∧ type ≤ 254 → 0 ≤ code ∧ code ≤ 255 → holds type code

theorem reads_of_matches (matched : item.Matches type code) : item.Reads type code :=
  fun _ => ⟨matched.1, fun own given _ => matched.2 own given⟩

theorem reads_matches (proper : item.Proper) : item.Reads type code ↔ item.Matches type code := by
  unfold IcmpItem.Reads IcmpItem.Matches
  rw [forall_prop_of_true proper.1]
  apply and_congr_right
  intro _
  apply forall_congr'
  intro own
  apply forall_congr'
  intro given
  rw [forall_prop_of_true]
  rintro rfl
  exact proper.2 given

/-- An item with a zero reads as more than it matches. -/
theorem reads_more (inRange : item.InRange) (improper : ¬ item.Proper) :
    ∃ type code, (0 ≤ type ∧ type ≤ 254) ∧ (0 ≤ code ∧ code ≤ 255) ∧ item.Reads type code ∧
      ¬ item.Matches type code := by
  by_cases zero : item.type = 0
  · refine ⟨1, 0, by omega, by omega, fun other => (other zero).elim, ?_⟩
    intro ⟨same, _⟩
    omega
  · have zeroCode : item.code = some 0 := by
      by_contra other
      exact improper ⟨zero, other⟩
    refine ⟨item.type, 1, inRange.1, by omega, fun _ => ⟨rfl, ?_⟩, ?_⟩
    · intro own given some
      rw [zeroCode, Option.some.injEq] at given
      exact (some given.symm).elim
    · intro ⟨_, codes⟩
      exact absurd (codes 0 zeroCode) (by omega)

/-- Some type and code that an item matches and reads. -/
theorem matches_some (inRange : item.InRange) : ∃ type code, (0 ≤ type ∧ type ≤ 254) ∧
    (0 ≤ code ∧ code ≤ 255) ∧ item.Reads type code ∧ item.Matches type code := by
  have reads : ∀ code, (∀ own, item.code = some own → code = own) →
      item.Reads item.type code ∧ item.Matches item.type code :=
    fun code same => ⟨fun _ => ⟨rfl, fun own given _ => same own given⟩, rfl, same⟩
  cases given : item.code with
  | none => exact ⟨item.type, 0, inRange.1, by omega, reads 0 (by simp [given])⟩
  | some own => exact ⟨item.type, own, inRange.1, inRange.2 own given, reads own (by simp [given])⟩

theorem taken_iff_single (inRange : item.InRange) :
    ForAllIcmp (fun type code => item.Reads type code ↔ item.Matches type code) ↔ item.Proper := by
  constructor
  · intro same
    by_contra improper
    obtain ⟨type, code, inType, inCode, reads, unmatched⟩ := reads_more inRange improper
    exact unmatched ((same type code inType inCode).mp reads)
  · exact fun proper type code _ _ => reads_matches proper

/-- The negated item is looked at, since it has a code and the other one has none. -/
theorem taken_iff_nested (inRange : negated.InRange) (type_eq : item.type = negated.type)
    (codeless : item.code = none) (coded : negated.code ≠ none) :
    ForAllIcmp (fun type code => item.Reads type code ∧ ¬ negated.Reads type code ↔
      item.Matches type code ∧ ¬ negated.Matches type code) ↔ negated.Proper := by
  constructor
  · intro same
    obtain ⟨own, given⟩ := Option.ne_none_iff_exists'.mp coded
    by_contra improper
    -- a code that is not the negated one
    obtain ⟨code, inCode, apart⟩ : ∃ code, (0 ≤ code ∧ code ≤ 255) ∧ code ≠ own := by
      by_cases zero : own = 0
      · exact ⟨1, by omega, by omega⟩
      · exact ⟨0, by omega, Ne.symm zero⟩
    have meant : item.Matches item.type code ∧ ¬ negated.Matches item.type code :=
      ⟨⟨rfl, by simp [codeless]⟩, fun ⟨_, codes⟩ => apart (codes own given)⟩
    apply ((same item.type code (type_eq ▸ inRange.1) inCode).mpr meant).2
    intro some
    refine ⟨type_eq, fun own' given' other => ?_⟩
    rw [given, Option.some.injEq] at given'
    exact (improper ⟨some, by rw [given, given']; simpa using other⟩).elim
  · intro proper type code _ _
    have other : item.Proper := ⟨by rw [type_eq]; exact proper.1, by simp [codeless]⟩
    rw [reads_matches proper, reads_matches other]

/-- Two items that are told apart by their types or codes, or of which the negated one is wider. -/
theorem taken_iff_apart (inRange : item.InRange)
    (told : item.type = negated.type → item.code ≠ negated.code ∧ item.code ≠ none) :
    ForAllIcmp (fun type code => item.Reads type code ↔
      item.Matches type code ∧ ¬ negated.Matches type code) ↔
      item.Proper ∧ ¬ negated.Covers item := by
  constructor
  · intro same
    refine ⟨(taken_iff_single inRange).mp fun type code inType inCode => ?_, ?_⟩
    · exact ⟨fun reads => ((same type code inType inCode).mp reads).1, reads_of_matches⟩
    · intro ⟨type_eq, wider⟩
      obtain ⟨type, code, inType, inCode, reads, matched⟩ := matches_some inRange
      apply ((same type code inType inCode).mp reads).2
      refine ⟨matched.1.trans type_eq.symm, ?_⟩
      rw [wider.resolve_right (Ne.symm (told type_eq.symm).1)]
      intro own given
      cases given
  · intro ⟨proper, uncovered⟩ type code _ _
    rw [reads_matches proper, iff_self_and]
    intro ⟨typed, codes⟩ ⟨typed', codes'⟩
    have type_eq := typed.symm.trans typed'
    obtain ⟨own, given⟩ := Option.ne_none_iff_exists'.mp (told type_eq).2
    have coded : negated.code ≠ none := fun none => uncovered ⟨type_eq.symm, Or.inl none⟩
    obtain ⟨own', given'⟩ := Option.ne_none_iff_exists'.mp coded
    apply (told type_eq).1
    rw [given, given', ← codes own given, ← codes' own' given']

theorem taken_iff (icmp not_icmp : Option IcmpItem) (inRange : ∀ item, icmp = some item → item.InRange)
    (inRange' : ∀ item, not_icmp = some item → item.InRange) :
    ForAllIcmp (fun type code => IcmpTaken icmp not_icmp type code ↔ IcmpMeant icmp not_icmp type code) ↔
      IcmpRead icmp not_icmp := by
  cases icmp with
  | none =>
    cases not_icmp with
    | none => simp [ForAllIcmp, IcmpTaken, IcmpMeant, IcmpRead]
    | some negated =>
      rw [IcmpRead, ← taken_iff_single (inRange' negated rfl)]
      simp [ForAllIcmp, IcmpTaken, IcmpMeant, not_iff_not]
  | some item =>
    cases not_icmp with
    | none =>
      rw [IcmpRead, ← taken_iff_single (inRange item rfl)]
      simp [ForAllIcmp, IcmpTaken, IcmpMeant]
    | some negated =>
      have meant : ∀ type code, IcmpMeant (some item) (some negated) type code ↔
          item.Matches type code ∧ ¬ negated.Matches type code := by simp [IcmpMeant]
      simp only [meant, IcmpTaken, IcmpRead]
      -- where the negated item is not looked at
      have ignored : (item.type = negated.type → item.code ≠ negated.code ∧ item.code ≠ none) →
          (ForAllIcmp (fun type code => item.Reads type code ∧ (item.type = negated.type →
              item.code ≠ negated.code → item.code = none → ¬ negated.Reads type code) ↔
            item.Matches type code ∧ ¬ negated.Matches type code) ↔
          item.Proper ∧ ¬ negated.Covers item ∧ (item.Covers negated → negated.Proper)) := by
        intro told
        have unread : ∀ type code, (item.type = negated.type → item.code ≠ negated.code →
            item.code = none → ¬ negated.Reads type code) :=
          fun _ _ same _ none => absurd none (told same).2
        have narrow : ¬ item.Covers negated := by
          intro ⟨same, wider⟩
          exact wider.elim (told same).2 (told same).1
        simp only [and_iff_left (unread _ _), narrow, false_implies, and_true]
        exact taken_iff_apart (inRange item rfl) told
      by_cases type_eq : item.type = negated.type
      · by_cases code_eq : item.code = negated.code
        · -- the same item twice, of which all is taken and nothing meant
          obtain ⟨type, code, inType, inCode, reads, matched⟩ := matches_some (inRange item rfl)
          apply iff_of_false
          · intro same
            have kept := (same type code inType inCode).mp ⟨reads, fun _ other => (other code_eq).elim⟩
            exact kept.2 ⟨matched.1.trans type_eq, fun own given => matched.2 own (code_eq.trans given)⟩
          · exact fun ⟨_, uncovered, _⟩ => uncovered ⟨type_eq.symm, Or.inr code_eq.symm⟩
        · by_cases codeless : item.code = none
          · have coded : negated.code ≠ none := fun none => code_eq (codeless.trans none.symm)
            have uncovered : ¬ negated.Covers item := by
              intro ⟨_, wider⟩
              exact wider.elim coded fun same => code_eq same.symm
            have proper : negated.Proper → item.Proper := fun proper =>
              ⟨by rw [type_eq]; exact proper.1, by simp [codeless]⟩
            have covers : item.Covers negated := ⟨type_eq, Or.inl codeless⟩
            have nested := taken_iff_nested (inRange' negated rfl) type_eq codeless coded
            have read : ∀ type code, (item.type = negated.type → item.code ≠ negated.code →
                item.code = none → ¬ negated.Reads type code) ↔ ¬ negated.Reads type code :=
              fun type code => ⟨fun left => left type_eq code_eq codeless, fun left _ _ _ => left⟩
            simp only [read]
            rw [nested]
            tauto
          · exact ignored fun _ => ⟨code_eq, codeless⟩
      · exact ignored fun same => (type_eq same).elim

end Items

section Parsed

variable {P E κ : Type} [Fintype E] [DecidableEq E] [NamedPorts E] [RuleProperties P E κ]
  {icmp_data not_icmp_data : Yaml} {protocol : Fin 256} {src_pods dst_pods : PeerSet E} {x : Flow E κ}

theorem truthy_number {value : Yaml} {number : Int} (read : asNumber value = some number) :
    value.truthy = decide (number ≠ 0) := by
  cases value with
  | int n =>
    rw [← Option.some.inj read]
    rfl
  | bool b =>
    rw [← Option.some.inj read]
    cases b <;> rfl
  | _ => cases read

theorem icmpItem_shape (valid : IcmpValid icmp_data) :
    icmp_data = .null ∧ icmpItem icmp_data = none ∨
    icmp_data.isNull = false ∧ ∃ item, icmpItem icmp_data = some item ∧ item.InRange ∧
      asNumber (icmp_data.field "type") = some item.type ∧
      asNumber (icmp_data.field "code") = item.code ∧
      (icmp_data.field "code").isNull = item.code.isNone := by
  rcases valid with rfl | ⟨entries, rfl, _, ⟨type, typeRead, inType⟩, code⟩
  · exact Or.inl ⟨rfl, rfl⟩
  · refine Or.inr ⟨rfl, _, rfl, ⟨?_, ?_⟩, ?_, rfl, ?_⟩
    · rw [typeRead]
      exact inType
    · intro own given
      rcases code with null | ⟨code, codeRead, inCode⟩
      · rw [null] at given
        cases given
      · rw [codeRead, Option.some.injEq] at given
        exact given ▸ inCode
    · rw [typeRead]
      rfl
    · rcases code with null | ⟨code, codeRead, inCode⟩
      · rw [null]
        rfl
      · rw [codeRead, isNull_of_number codeRead]
        rfl

omit [DecidableEq E] in
/-- The connections of a cube are those that its item reads as. -/
theorem mem_icmpCube (valid : IcmpValid icmp_data) :
    x ∈ (makeConnPropsOfCube (icmpCube (icmp_data.field "type") (icmp_data.field "code") protocol
      src_pods dst_pods) : P) ↔
      (x.src ∈ src_pods ∧ x.dst ∈ dst_pods ∧ x.protocol = protocol) ∧
      ∀ item, icmpItem icmp_data = some item → item.Reads (icmp_type P x.rest) (icmp_code P x.rest) := by
  have ports : (PortSet.init true).Holds x.dst {protocol} (dst_port P x.rest) :=
    holds_all (PortProperties.dst_port_valid x.rest)
  rw [mem_makeConnPropsOfCube]
  simp only [icmpCube, AdmitsRest, ConnectivityCube.Admits, Option.some.injEq, forall_eq',
    getProtocolSetWithSingleProtocol, Finset.mem_singleton, Option.getD_none, Option.getD_some,
    ports, and_true, reduceCtorEq, false_implies, implies_true, true_and]
  apply and_congr_right
  intro _
  rcases icmpItem_shape valid with ⟨rfl, none⟩ | ⟨_, item, some, _, typeRead, codeRead, null⟩
  · simp [none, Yaml.field, Yaml.truthy]
  · rw [some, truthy_number typeRead, typeRead, codeRead]
    simp only [Option.some.injEq, forall_eq', IcmpItem.Reads]
    by_cases zero : item.type = 0
    · simp [zero]
    · cases given : item.code with
      | none => simp [zero]
      | some own =>
        rw [truthy_number (codeRead.trans given)]
        by_cases zeroCode : own = 0
        · simp [zero, zeroCode]
        · simp [zero, zeroCode]

/-- The parser returns, with the types and codes that its branches leave. -/
theorem parseIcmp_taken (valid : IcmpValid icmp_data) (valid' : IcmpValid not_icmp_data) :
    ∃ res : P, parseIcmp icmp_data not_icmp_data protocol src_pods dst_pods = .ok res ∧
      ∀ x : Flow E κ, x ∈ res ↔ (x.src ∈ src_pods ∧ x.dst ∈ dst_pods ∧ x.protocol = protocol) ∧
        IcmpTaken (icmpItem icmp_data) (icmpItem not_icmp_data) (icmp_type P x.rest)
          (icmp_code P x.rest) := by
  unfold parseIcmp
  simp only [icmpField_ok valid, icmpField_ok valid', checkIcmpData_ok valid, checkIcmpData_ok valid',
    ok_bind]
  have first : ∀ x : Flow E κ, x ∈ (makeConnPropsOfCube (icmpCube (icmp_data.field "type")
      (icmp_data.field "code") protocol src_pods dst_pods) : P) ↔ _ := fun x => mem_icmpCube valid
  have second : ∀ x : Flow E κ, x ∈ (makeConnPropsOfCube (icmpCube (not_icmp_data.field "type")
      (not_icmp_data.field "code") protocol src_pods dst_pods) : P) ↔ _ := fun x => mem_icmpCube valid'
  generalize (makeConnPropsOfCube (icmpCube (icmp_data.field "type") (icmp_data.field "code") protocol
    src_pods dst_pods) : P) = conn_props at first ⊢
  generalize (makeConnPropsOfCube (icmpCube (not_icmp_data.field "type")
    (not_icmp_data.field "code") protocol src_pods dst_pods) : P) = not_conn_props at second ⊢
  rcases icmpItem_shape valid with ⟨rfl, absent⟩ | ⟨given, item, present, _, typeRead, codeRead, null⟩
  · rw [absent] at first ⊢
    rcases icmpItem_shape valid' with ⟨rfl, absent'⟩ | ⟨given', negated, present', _, _, _, _⟩
    · rw [absent']
      refine ⟨conn_props, rfl, fun x => ?_⟩
      rw [first]
      simp [IcmpTaken]
    · rw [present'] at second ⊢
      rw [given']
      refine ⟨conn_props \ not_conn_props, rfl, fun x => ?_⟩
      rw [ExactSet.mem_sdiff, first, second]
      simp only [Option.some.injEq, forall_eq', IcmpTaken, reduceCtorEq, false_implies, implies_true]
      tauto
  · rw [present] at first ⊢
    rw [given]
    rcases icmpItem_shape valid' with ⟨rfl, absent'⟩ | ⟨given', negated, present', _, typeRead', codeRead', _⟩
    · rw [absent']
      refine ⟨conn_props, rfl, fun x => ?_⟩
      rw [first]
      simp [IcmpTaken]
    · rw [present'] at second ⊢
      rw [given', typeRead, typeRead', codeRead, codeRead', null]
      simp only [Bool.not_false, if_true, Option.some.injEq]
      by_cases same : item.type = negated.type ∧ item.code = negated.code
      · rw [if_pos same]
        refine ⟨conn_props, rfl, fun x => ?_⟩
        rw [first]
        simp [IcmpTaken, same]
      · rw [if_neg same]
        by_cases nested : item.type = negated.type ∧ item.code.isNone = true
        · rw [if_pos nested]
          refine ⟨conn_props \ not_conn_props, rfl, fun x => ?_⟩
          rw [ExactSet.mem_sdiff, first, second]
          have apart : item.code ≠ negated.code := fun code_eq => same ⟨nested.1, code_eq⟩
          have codeless : item.code = none := Option.isNone_iff_eq_none.mp nested.2
          have read : ∀ type code, (item.type = negated.type → item.code ≠ negated.code →
              item.code = none → ¬ negated.Reads type code) ↔ ¬ negated.Reads type code :=
            fun type code => ⟨fun left => left nested.1 apart codeless, fun left _ _ _ => left⟩
          simp only [Option.some.injEq, forall_eq', IcmpTaken, read]
          tauto
        · rw [if_neg nested]
          refine ⟨conn_props, rfl, fun x => ?_⟩
          rw [first]
          have unread : ¬ (item.type = negated.type ∧ item.code = none) := by
            rwa [← Option.isNone_iff_eq_none]
          simp only [Option.some.injEq, forall_eq', IcmpTaken]
          tauto

theorem icmpItem_inRange (valid : IcmpValid icmp_data) :
    ∀ item, icmpItem icmp_data = some item → item.InRange := by
  intro item found
  rcases icmpItem_shape valid with ⟨_, absent⟩ | ⟨_, item', present, inRange, _⟩
  · rw [absent] at found
    cases found
  · rw [present, Option.some.injEq] at found
    exact found ▸ inRange

/-- The connections of a rule are those that its ICMP data describe if and only if the items are
read as they are meant, where there are connections between its peers at all. -/
theorem parseIcmp_exact (valid : IcmpValid icmp_data) (valid' : IcmpValid not_icmp_data) :
    ∃ res : P, parseIcmp icmp_data not_icmp_data protocol src_pods dst_pods = .ok res ∧
      ((∀ x : Flow E κ, x ∈ res ↔ IcmpMatches P (icmpItem icmp_data) (icmpItem not_icmp_data) protocol
          src_pods dst_pods x) ↔
        src_pods = ∅ ∨ dst_pods = ∅ ∨ IcmpRead (icmpItem icmp_data) (icmpItem not_icmp_data)) := by
  obtain ⟨res, parsed, taken⟩ : ∃ res : P, parseIcmp icmp_data not_icmp_data protocol src_pods dst_pods =
    .ok res ∧ _ := parseIcmp_taken valid valid'
  refine ⟨res, parsed, ?_⟩
  have meant : ∀ x : Flow E κ, IcmpMatches P (icmpItem icmp_data) (icmpItem not_icmp_data) protocol
      src_pods dst_pods x ↔ (x.src ∈ src_pods ∧ x.dst ∈ dst_pods ∧ x.protocol = protocol) ∧
        IcmpMeant (icmpItem icmp_data) (icmpItem not_icmp_data) (icmp_type P x.rest)
          (icmp_code P x.rest) := by
    intro x
    simp only [IcmpMatches, IcmpMeant, and_assoc]
  simp only [taken, meant, and_congr_right_iff]
  rw [← taken_iff _ _ (icmpItem_inRange valid) (icmpItem_inRange valid')]
  constructor
  · intro same
    by_contra other
    rw [not_or, not_or, ← ne_eq, ← ne_eq, ← Finset.nonempty_iff_ne_empty,
      ← Finset.nonempty_iff_ne_empty] at other
    obtain ⟨⟨src, inSrc⟩, ⟨dst, inDst⟩, different⟩ := other
    apply different
    intro type code inType inCode
    obtain ⟨rest, _, _, rfl, rfl⟩ := RuleProperties.rest_of (P := P) 1 1 type code (by omega) (by omega)
      inType inCode
    exact same ⟨src, dst, protocol, rest⟩ ⟨inSrc, inDst, rfl⟩
  · rintro read x ⟨inSrc, inDst, _⟩
    rcases read with rfl | rfl | all
    · simp at inSrc
    · simp at inDst
    · exact all _ _ (RuleProperties.icmp_valid x.rest).1 (RuleProperties.icmp_valid x.rest).2

end Parsed

section OnePod

def echoRequest : Yaml := .dict [("type", .int 8)]

def echoReply : Yaml := .dict [("type", .int 0)]

theorem echo_valid : IcmpValid echoRequest ∧ IcmpValid echoReply := by
  constructor
  · exact Or.inr ⟨_, rfl, by decide, ⟨8, rfl, by decide⟩, Or.inl rfl⟩
  · exact Or.inr ⟨_, rfl, by decide, ⟨0, rfl, by decide⟩, Or.inl rfl⟩

theorem echoRequest_exact : ∃ res : FlowSet PeerKind RestDims,
    parseIcmp echoRequest .null 1 {.pod} {.hostEP} = .ok res ∧
    ((∀ x : Flow PeerKind RestDims, x ∈ res ↔ IcmpMatches (FlowSet PeerKind RestDims)
      (icmpItem echoRequest) (icmpItem .null) 1 {.pod} {.hostEP} x) ↔
    ({.pod} : PeerSet PeerKind) = ∅ ∨ ({.hostEP} : PeerSet PeerKind) = ∅ ∨
      IcmpRead (icmpItem echoRequest) (icmpItem .null)) :=
  parseIcmp_exact echo_valid.1 (Or.inl rfl)

/-- The connections of a rule for echo replies have echo requests among them. -/
theorem echoReply_requests : ¬ ∃ res : FlowSet PeerKind RestDims,
    parseIcmp echoReply .null 1 {.pod} {.hostEP} = .ok res ∧
    ∀ x : Flow PeerKind RestDims, x ∈ res ↔ IcmpMatches (FlowSet PeerKind RestDims)
      (icmpItem echoReply) (icmpItem .null) 1 {.pod} {.hostEP} x := by
  intro ⟨res, parsed, same⟩
  obtain ⟨res', parsed', taken⟩ : ∃ res : FlowSet PeerKind RestDims,
      parseIcmp echoReply .null 1 {.pod} {.hostEP} = .ok res ∧ _ :=
    parseIcmp_taken echo_valid.2 (Or.inl rfl)
  obtain rfl := Except.ok.inj (parsed.symm.trans parsed')
  have request : (⟨.pod, .hostEP, 1, ⟨0, 0, 8, 0⟩⟩ : Flow PeerKind RestDims) ∈ res :=
    (taken _).mpr ⟨by decide, fun other => (other rfl).elim⟩
  have reply := ((same _).mp request).2.2.2.1 ⟨0, none⟩ rfl
  exact absurd reply.1 (by decide)

end OnePod
end Nca.Parsers.CalicoPolicyYamlParser
