import Nca.Parsers.LabelSelectors
import Nca.Parsers.SelectorAtoms
import Nca.Parsers.SelectorPieces

/-!
The peers that a written selector selects, and what the parser returns for it. Addresses that lie in
several network sets are judged once for each atomic expression, and not once for each set.
-/

namespace Nca.Parsers
open CoreDS Lib Lib.Texts NetworkConfig TopologyPeers

variable {O A : Type} [Fintype O] [DecidableEq O] [DecidableEq A] [TopologyPeers O]
  {unicode : Char → Bool} {addresses : O → Finset A} {peer_container : PeerContainer O}
  {ns : Option K8sNamespace} {is_namespace_selector : Bool}

section Meaning

/-- A peer carries a label itself or, for the selector of namespaces, its namespace does. -/
def Carries (is_namespace_selector : Bool) (peer : O) (key value : Str) : Prop :=
  if is_namespace_selector then
    ∃ own, peer_namespace peer = some own ∧
      namespaceCarries own (String.ofList key) (String.ofList value)
  else podCarries peer (String.ofList key) (String.ofList value)

def CompareOp.Sat (carries : Str → Prop) (value : Str) : CompareOp → Prop
  | .eq => carries value
  | .ne => ¬ carries value
  | .contains => ∃ w, carries w ∧ value <:+: w
  | .startsWith => ∃ w, carries w ∧ value <+: w
  | .endsWith => ∃ w, carries w ∧ value <:+ w

def Atom.Sat (is_namespace_selector : Bool) (peer : O) : Atom → Prop
  | .all => True
  | .has k => ∃ v, Carries is_namespace_selector peer k v
  | .compare k op v => op.Sat (Carries is_namespace_selector peer k) v
  | .member k negated vs => (∃ v ∈ vs, Carries is_namespace_selector peer k v) ↔ negated = false

/-- The labels of the peer satisfy the selector. -/
def Selector.Sat (is_namespace_selector : Bool) (peer : O) : Selector → Prop
  | .atom a => a.Sat is_namespace_selector peer
  | .not e => ¬ e.Sat is_namespace_selector peer
  | .and e f => e.Sat is_namespace_selector peer ∧ f.Sat is_namespace_selector peer
  | .or e f => e.Sat is_namespace_selector peer ∨ f.Sat is_namespace_selector peer

/-- No value is empty, and no list of values is. -/
def Atom.Supported : Atom → Prop
  | .all => True
  | .has _ => True
  | .compare _ _ v => v ≠ []
  | .member _ _ vs => vs ≠ [] ∧ [] ∉ vs

instance (a : Atom) : Decidable a.Supported := by
  cases a <;> unfold Atom.Supported <;> infer_instance

def Selector.Supported : Selector → Prop
  | .atom a => a.Supported
  | .not e => e.Supported
  | .and e f => e.Supported ∧ f.Supported
  | .or e f => e.Supported ∧ f.Supported

def Selector.decSupported : (e : Selector) → Decidable e.Supported
  | .atom a => inferInstanceAs (Decidable a.Supported)
  | .not e => e.decSupported
  | .and e f => @instDecidableAnd _ _ e.decSupported f.decSupported
  | .or e f => @instDecidableAnd _ _ e.decSupported f.decSupported

instance (e : Selector) : Decidable e.Supported := e.decSupported

variable (addresses peer_container ns is_namespace_selector)

/-- The peers that the lookup of an atomic expression goes over. -/
def lookupScope (a : Atom) : PeerSet O :=
  match a with
  | .all => allPeers peer_container ns is_namespace_selector
  | .has _ => peer_container.peer_set.filter fun peer =>
      if is_namespace_selector then (peer_namespace peer).isSome
      else PeerContainer.considered ns peer
  | _ => peer_container.peer_set.filter fun peer =>
      !is_namespace_selector || (peer_namespace peer).isSome

/-- The value of a selector where an atomic expression holds if some peer with the point satisfies
it. -/
def Judged (p : O ⊕ A) : Selector → Prop
  | .atom a => ∃ peer ∈ lookupScope peer_container ns is_namespace_selector a,
      p ∈ points addresses peer ∧ a.Sat is_namespace_selector peer
  | .not e => ¬ Judged p e
  | .and e f => Judged p e ∧ Judged p f
  | .or e f => Judged p e ∨ Judged p f

open Classical in
noncomputable def meaning (e : Selector) : PeerSet (O ⊕ A) :=
  (ofPeers addresses (allPeers peer_container ns is_namespace_selector)).filter fun p =>
    Judged addresses peer_container ns is_namespace_selector p e

/-- The outcome of parsing a written selector. -/
noncomputable def outcome (e : Selector) : Except ParseError (PeerSet (O ⊕ A)) :=
  if e.Supported then .ok (meaning addresses peer_container ns is_namespace_selector e)
  else syntaxError "Invalid expression"

end Meaning

section Lookups

variable {peer : O} {a : Atom} {s t k v : Str} {vs : List Str} {op : CompareOp}

def CompareOp.action : CompareOp → FilterActionType
  | .eq => .In
  | .ne => .NotIn
  | .contains => .Contain
  | .startsWith => .StartWith
  | .endsWith => .EndWith

/-- The lookup that the parser makes for an atomic expression. -/
def looked (peer_container : PeerContainer O) (ns : Option K8sNamespace)
    (is_namespace_selector : Bool) : Atom → PeerSet O
  | .all => allPeers peer_container ns is_namespace_selector
  | .has k => selectorPeersWithKey peer_container ns is_namespace_selector k
  | .compare k op v => selectorPeersWithLabel peer_container is_namespace_selector k [v] op.action
  | .member k negated vs => selectorPeersWithLabel peer_container is_namespace_selector k vs
      (if negated then .NotIn else .In)

theorem mem_squeezed {c : Char} (inside : c ∈ squeezed s) : c ∈ s ∨ c = ' ' := by
  induction s with
  | nil => cases inside
  | cons d s ih =>
    rw [squeezed] at inside
    split at inside
    · split at inside
      · rcases List.mem_cons.mp inside with rfl | later
        · exact Or.inr rfl
        · exact (ih later).imp_left (List.mem_cons_of_mem d)
      · exact (ih inside).imp_left (List.mem_cons_of_mem d)
    · rcases List.mem_cons.mp inside with rfl | later
      · exact Or.inl List.mem_cons_self
      · exact (ih later).imp_left (List.mem_cons_of_mem d)

theorem squeezed_bracketless (plain : PlainText s) : '(' ∉ squeezed s := by
  intro inside
  rcases mem_squeezed inside with original | space
  · exact (plain '(' original).1 rfl
  · exact absurd space (by decide)

theorem ne_of_bracketless (absent : '(' ∉ s) : s ≠ "global()".toList ∧ s ≠ "all()".toList := by
  constructor <;>
  · rintro rfl
    exact absent (by decide)

section Paths

variable {e : Str} (joined : joinedWords (strip s) = t) (absent : '(' ∉ t)

include joined absent in
theorem parse_keyVal (read : (key_val_re unicode).reMatch t = some [(1, k), (2, e), (3, v)]) :
    parseSelectorExpr unicode addresses peer_container ns is_namespace_selector s =
      .ok (ofPeers addresses (allPeers peer_container ns is_namespace_selector) ∩
        ofPeers addresses (selectorPeersWithLabel peer_container is_namespace_selector k [v]
          (if e = ['='] then .In else .NotIn))) := by
  obtain ⟨notGlobal, notAll⟩ := ne_of_bracketless absent
  unfold parseSelectorExpr
  simp only [joined, notGlobal, notAll, and_false, if_false, has_none absent, read]
  rfl

include joined absent in
theorem parse_str (unread : (key_val_re unicode).reMatch t = none)
    (unlisted : (in_re unicode).reMatch t = none)
    (read : (str_re unicode).reMatch t = some [(1, k), (2, e), (3, v)]) :
    parseSelectorExpr unicode addresses peer_container ns is_namespace_selector s =
      .ok (ofPeers addresses (allPeers peer_container ns is_namespace_selector) ∩
        ofPeers addresses (selectorPeersWithLabel peer_container is_namespace_selector k [v]
          (substringAction e))) := by
  obtain ⟨notGlobal, notAll⟩ := ne_of_bracketless absent
  unfold parseSelectorExpr
  simp only [joined, notGlobal, notAll, and_false, if_false, has_none absent, unread, unlisted, read]
  rfl

include joined absent in
theorem parse_invalid (unread : (key_val_re unicode).reMatch t = none)
    (unlisted : (in_re unicode).reMatch t = none) (noWords : (str_re unicode).reMatch t = none) :
    parseSelectorExpr unicode addresses peer_container ns is_namespace_selector s =
      syntaxError "Invalid expression" := by
  obtain ⟨notGlobal, notAll⟩ := ne_of_bracketless absent
  unfold parseSelectorExpr
  simp only [joined, notGlobal, notAll, and_false, if_false, has_none absent, unread, unlisted,
    noWords]

end Paths

theorem solid_head {c : Char} {x : Str} (solid : isSpace c = false) :
    ∀ d ∈ (c :: x).head?, isSpace d = false := by
  rintro d ⟨⟩
  exact solid

theorem twoWords_append {x z : Str} :
    twoWords x ++ z = x ++ ([' '] ++ ("with".toList ++ z)) := by
  rw [twoWords, List.append_assoc, List.append_assoc]

/-- A comparison is looked up, if its value is not empty. -/
theorem parse_compare (key : IsKey k) (value : IsValue v) (text : CompareText Gap (quoted v) op t)
    (joined : joinedWords (strip s) = k ++ t) (absent : '(' ∉ k ++ t) (some : v ≠ []) :
    parseSelectorExpr unicode addresses peer_container ns is_namespace_selector s =
      .ok (ofPeers addresses (allPeers peer_container ns is_namespace_selector) ∩
        ofPeers addresses (selectorPeersWithLabel peer_container is_namespace_selector k [v]
          op.action)) := by
  have unread : op.last ≠ '=' → (key_val_re unicode).reMatch (k ++ t) = none :=
    fun other => keyVal_compare_none key value text (Or.inl other)
  have unlisted : (in_re unicode).reMatch (k ++ t) = none := in_compare_none key value text
  cases text with
  | @eq u w left right =>
    have read : (key_val_re unicode).reMatch (k ++ (u ++ ("==".toList ++ (w ++ quoted v)))) =
        .some [(1, k), (2, ['=']), (3, v)] := keyVal_read key value some left right (Or.inl rfl)
    rw [parse_keyVal joined absent read, if_pos rfl]
    rfl
  | @ne u w left right =>
    have read : (key_val_re unicode).reMatch (k ++ (u ++ ("!=".toList ++ (w ++ quoted v)))) =
        .some [(1, k), (2, ['!']), (3, v)] := keyVal_read key value some left right (Or.inr rfl)
    rw [parse_keyVal joined absent read, if_neg (by decide)]
    rfl
  | @contains u w left gap right =>
    obtain rfl := left.resolve_left gap
    have solid : ∀ d ∈ ("contains".toList ++ (w ++ quoted v)).head?, isSpace d = false :=
      solid_head (by decide)
    have read := str_read unicode key value some right operator_contains solid
    rw [parse_str joined absent (unread (by decide)) unlisted read]
    rfl
  | @startsWith u m w left gap middle gap' right =>
    obtain rfl := left.resolve_left gap
    obtain rfl := middle.resolve_left gap'
    have solid : ∀ d ∈ (twoWords "starts".toList ++ (w ++ quoted v)).head?, isSpace d = false :=
      solid_head (by decide)
    have read := str_read unicode key value some right operator_starts solid
    rw [twoWords_append] at read
    rw [parse_str joined absent (unread (by decide)) unlisted read]
    rfl
  | @endsWith u m w left gap middle gap' right =>
    obtain rfl := left.resolve_left gap
    obtain rfl := middle.resolve_left gap'
    have solid : ∀ d ∈ (twoWords "ends".toList ++ (w ++ quoted v)).head?, isSpace d = false :=
      solid_head (by decide)
    have read := str_read unicode key value some right operator_ends solid
    rw [twoWords_append] at read
    rw [parse_str joined absent (unread (by decide)) unlisted read]
    rfl

/-- A list of values is looked up, if it is not empty and has no empty values. -/
theorem parse_member {negated : Bool} (key : IsKey k) (values : ListText Gap vs v)
    (text : MemberText Gap v negated t) (joined : joinedWords (strip s) = k ++ t)
    (absent : '(' ∉ k ++ t) :
    parseSelectorExpr unicode addresses peer_container ns is_namespace_selector s =
      if vs ≠ [] ∧ [] ∉ vs then
        .ok (ofPeers addresses (allPeers peer_container ns is_namespace_selector) ∩
          ofPeers addresses (looked peer_container ns is_namespace_selector (.member k negated vs)))
      else syntaxError "Invalid expression" := by
  obtain ⟨notGlobal, notAll⟩ := ne_of_bracketless absent
  unfold parseSelectorExpr
  simp only [joined, notGlobal, notAll, and_false, if_false, has_none absent]
  rw [keyVal_member_none key values text]
  by_cases supported : vs ≠ [] ∧ [] ∉ vs
  · rw [if_pos supported, in_read key values text supported.1 supported.2]
    have found : ((values_re unicode).findall (k ++ t).length (k ++ t)).map
        (fun m => groupText m 1) = vs := finds_member key values text _ (Nat.le_refl _)
    dsimp only
    rw [found]
    cases negated <;> rfl
  · have bad : vs = [] ∨ [] ∈ vs := by
      by_contra good
      rw [not_or] at good
      exact supported good
    rw [if_neg supported, in_member_none key values text bad, str_member_none key values text]

/-- An atomic expression is looked up among the peers that the selector is about. -/
theorem parse_atom (text : AtomText Spaces a s) :
    parseSelectorExpr unicode addresses peer_container ns is_namespace_selector s =
      if a.Supported then
        .ok (ofPeers addresses (allPeers peer_container ns is_namespace_selector) ∩
          ofPeers addresses (looked peer_container ns is_namespace_selector a))
      else syntaxError "Invalid expression" := by
  have joined := joined_atom text
  have gaps := squeezed_atom text
  cases text with
  | all =>
    have word : joinedWords (strip "all()".toList) = "all()".toList := rfl
    have other : "all()".toList ≠ "global()".toList := by decide
    unfold parseSelectorExpr
    simp only [word, other, and_false, if_false, if_true, looked, Atom.Supported, Finset.inter_self]
  | @has k key =>
    have whole : squeezed ("has(".toList ++ (k ++ [')'])) = "has(".toList ++ (k ++ [')']) := by
      rw [squeezed_token (solid_text (by decide)), squeezed_word key.2]
      rfl
    rw [whole] at joined
    have read : (has_re unicode).reMatch ("has(".toList ++ (k ++ [')'])) = some [(1, k)] :=
      has_read key
    have notGlobal : "has(".toList ++ (k ++ [')']) ≠ "global()".toList := by
      intro same
      cases same
    have notAll : "has(".toList ++ (k ++ [')']) ≠ "all()".toList := by
      intro same
      cases same
    unfold parseSelectorExpr
    simp only [joined, notGlobal, notAll, and_false, if_false, read, looked, Atom.Supported]
    rfl
  | @compare k v s op key value text =>
    have plain : PlainText (k ++ s) :=
      plain_append (plain_value key.2) (plain_compare text (plain_quoted value))
    have absent := squeezed_bracketless plain
    have inner := squeezed_compare text ⟨_, rfl, by decide⟩
    have whole := squeezed_quoted (s := []) value
    simp only [List.append_nil, squeezed] at whole
    rw [whole] at inner
    rw [squeezed_word key.2] at joined absent
    by_cases some : v ≠ []
    · rw [if_pos (show (Atom.compare k op v).Supported from some)]
      exact parse_compare key value inner joined absent some
    · rw [if_neg (show ¬ (Atom.compare k op v).Supported from some)]
      obtain rfl := not_not.mp some
      exact parse_invalid joined absent (keyVal_compare_none key value inner (Or.inr rfl))
        (in_compare_none key value inner) (str_compare_none key inner)
  | @member k s t negated vs key values text =>
    have plain : PlainText (k ++ t) :=
      plain_append (plain_value key.2) (plain_member text (plain_list values))
    have absent := squeezed_bracketless plain
    have inner := squeezed_member text (list_solid values)
    rw [squeezed_word key.2] at joined absent
    exact parse_member key (squeezed_list values) inner joined absent

section Tests

variable {label : Option String} {own : K8sNamespace}

theorem substring_iff {rel : Str → Str → Prop} (empty : ¬ rel v []) :
    rel v (label.getD "").toList ↔ ∃ w, label = some (String.ofList w) ∧ rel v w := by
  cases label with
  | none => simpa using empty
  | some text =>
    constructor
    · intro related
      exact ⟨text.toList, by rw [String.ofList_toList], related⟩
    · intro ⟨w, same, related⟩
      rwa [Option.some.inj same, Option.getD_some, String.toList_ofList]

theorem filterAction_substring (some : v ≠ []) (substring : op.last ≠ '=') :
    filterAction op.action [String.ofList v] label = true ↔
      op.Sat (fun w => label = .some (String.ofList w)) v := by
  cases op with
  | eq => exact (substring rfl).elim
  | ne => exact (substring rfl).elim
  | contains =>
    have empty : ¬ v <:+: [] := fun inside => some (List.infix_nil.mp inside)
    simpa [filterAction, CompareOp.action, CompareOp.Sat] using substring_iff empty
  | startsWith =>
    have empty : ¬ v <+: [] := fun inside => some (List.prefix_nil.mp inside)
    simpa [filterAction, CompareOp.action, CompareOp.Sat] using substring_iff empty
  | endsWith =>
    have empty : ¬ v <:+ [] := fun inside => some (List.suffix_nil.mp inside)
    simpa [filterAction, CompareOp.action, CompareOp.Sat] using substring_iff empty

theorem sat_or {p q : Str → Prop} (substring : op.last ≠ '=') :
    op.Sat (fun w => p w ∨ q w) v ↔ op.Sat p v ∨ op.Sat q v := by
  cases op with
  | eq => exact (substring rfl).elim
  | ne => exact (substring rfl).elim
  | contains | startsWith | endsWith => simp only [CompareOp.Sat, or_and_right, exists_or]

omit [Fintype O] [DecidableEq O] in
theorem labelMatches_compare (some : v ≠ []) :
    PeerContainer.labelMatches (String.ofList k) [String.ofList v] op.action peer = true ↔
      op.Sat (fun w => podCarries peer (String.ofList k) (String.ofList w)) v := by
  have substring : op.last ≠ '=' → (PeerContainer.labelMatches (String.ofList k) [String.ofList v]
      op.action peer = true ↔
      op.Sat (fun w => podCarries peer (String.ofList k) (String.ofList w)) v) := by
    intro other
    have both : PeerContainer.labelMatches (String.ofList k) [String.ofList v] op.action peer =
        (filterAction op.action [String.ofList v] (labels peer (String.ofList k)) ||
          filterAction op.action [String.ofList v] (extra_labels peer (String.ofList k))) := by
      cases op with
      | ne => exact (other rfl).elim
      | _ => rfl
    rw [both, Bool.or_eq_true, filterAction_substring some other, filterAction_substring some other]
    exact (sat_or other).symm
  cases op with
  | eq => exact labelMatches_In.trans (by simp [CompareOp.Sat])
  | ne => exact labelMatches_NotIn.trans (by simp [CompareOp.Sat])
  | contains | startsWith | endsWith => exact substring (by decide)

theorem readCarries_some (some : v ≠ []) : readCarries own (String.ofList k) (String.ofList v) ↔
    namespaceCarries own (String.ofList k) (String.ofList v) := by
  have nonEmpty : "" ≠ String.ofList v := by
    intro same
    have lists := congrArg String.toList same
    exact some (String.toList_ofList.symm.trans lists.symm)
  unfold readCarries namespaceCarries
  cases own.labels (String.ofList k) with
  | none => simpa using nonEmpty
  | some text => simp

theorem namespaceMatches_compare (some : v ≠ []) :
    filterAction op.action [String.ofList v] (.some ((own.labels (String.ofList k)).getD "")) = true ↔
      op.Sat (fun w => namespaceCarries own (String.ofList k) (String.ofList w)) v := by
  have substring : op.last ≠ '=' → (filterAction op.action [String.ofList v]
      (.some ((own.labels (String.ofList k)).getD "")) = true ↔
      op.Sat (fun w => namespaceCarries own (String.ofList k) (String.ofList w)) v) := by
    intro other
    have same : filterAction op.action [String.ofList v]
        (.some ((own.labels (String.ofList k)).getD "")) =
        filterAction op.action [String.ofList v] (own.labels (String.ofList k)) := by
      cases op with
      | eq => exact (other rfl).elim
      | ne => exact (other rfl).elim
      | _ => rfl
    rw [same]
    exact filterAction_substring some other
  cases op with
  | eq => exact namespaceMatches_In.trans (by simp [CompareOp.Sat, readCarries_some some])
  | ne => exact namespaceMatches_NotIn.trans (by simp [CompareOp.Sat, readCarries_some some])
  | contains | startsWith | endsWith => exact substring (by decide)

end Tests

omit [Fintype O] [DecidableEq O] in
theorem carries_pod : Carries false peer k =
    fun w => podCarries peer (String.ofList k) (String.ofList w) := by
  funext w
  exact if_neg (by decide)

omit [Fintype O] [DecidableEq O] in
theorem carries_namespace {own : K8sNamespace} (inside : peer_namespace peer = some own) :
    Carries true peer k = fun w => namespaceCarries own (String.ofList k) (String.ofList w) := by
  funext w
  simp [Carries, inside]

theorem mem_looked_key : peer ∈ selectorPeersWithKey peer_container ns is_namespace_selector k ↔
    peer ∈ lookupScope peer_container ns is_namespace_selector (.has k) ∧
      (Atom.has k).Sat is_namespace_selector peer := by
  cases is_namespace_selector with
  | false =>
    have scope : peer ∈ lookupScope peer_container ns false (.has k) ↔
        peer ∈ peer_container.peer_set ∧ PeerContainer.considered ns peer = true := by
      simp [lookupScope]
    have carried : (Atom.has k).Sat false peer ↔
        ∃ v, podCarries peer (String.ofList k) (String.ofList v) := by
      simp [Atom.Sat, Carries]
    have spelled : (∃ v, podCarries peer (String.ofList k) (String.ofList v)) ↔
        ∃ value, podCarries peer (String.ofList k) value := by
      constructor
      · rintro ⟨v, held⟩
        exact ⟨_, held⟩
      · rintro ⟨value, held⟩
        exact ⟨value.toList, by rwa [String.ofList_toList]⟩
    rw [scope, carried, spelled, ← hasKey_iff]
    show peer ∈ peer_container.getPeersWithKey ns (String.ofList k) false ↔ _
    rw [PeerContainer.mem_peersWithKey, Bool.xor_false, and_assoc]
  | true =>
    show peer ∈ peer_container.getNamespacePodsWithKey (String.ofList k) false ↔ _
    cases own : peer_namespace peer with
    | none => simp [lookupScope, PeerContainer.getNamespacePodsWithKey, own]
    | some ns =>
      rw [PeerContainer.mem_namespacePodsWithKey own]
      have known : (∃ v, namespaceCarries ns (String.ofList k) (String.ofList v)) ↔
          (ns.labels (String.ofList k)).isSome = true := by
        rw [Option.isSome_iff_exists]
        constructor
        · rintro ⟨v, held⟩
          exact ⟨_, held⟩
        · rintro ⟨value, held⟩
          exact ⟨value.toList, by rwa [String.ofList_toList]⟩
      simp [lookupScope, Atom.Sat, Carries, own, known]

theorem mem_looked_label {values : List Str} {action : FilterActionType}
    (scope : lookupScope peer_container ns is_namespace_selector a =
      peer_container.peer_set.filter fun peer =>
        !is_namespace_selector || (peer_namespace peer).isSome)
    (pods : is_namespace_selector = false → (PeerContainer.labelMatches (String.ofList k)
      (values.map String.ofList) action peer = true ↔ a.Sat is_namespace_selector peer))
    (namespaces : ∀ own, is_namespace_selector = true → peer_namespace peer = some own →
      (filterAction action (values.map String.ofList) (some ((own.labels (String.ofList k)).getD "")) =
        true ↔ a.Sat is_namespace_selector peer)) :
    peer ∈ selectorPeersWithLabel peer_container is_namespace_selector k values action ↔
      peer ∈ lookupScope peer_container ns is_namespace_selector a ∧
        a.Sat is_namespace_selector peer := by
  rw [scope]
  cases is_namespace_selector with
  | false =>
    show peer ∈ peer_container.getPeersWithLabel _ _ _ ↔ _
    rw [PeerContainer.mem_peersWithLabel, pods rfl]
    simp
  | true =>
    show peer ∈ peer_container.getNamespacePodsWithLabel _ _ _ ↔ _
    cases own : peer_namespace peer with
    | none => simp [PeerContainer.getNamespacePodsWithLabel, own]
    | some ns =>
      rw [PeerContainer.mem_namespacePodsWithLabel own, namespaces ns rfl own]
      simp [own]

/-- A lookup finds the peers in its scope that satisfy the expression. -/
theorem mem_looked (supported : a.Supported) :
    peer ∈ looked peer_container ns is_namespace_selector a ↔
      peer ∈ lookupScope peer_container ns is_namespace_selector a ∧
        a.Sat is_namespace_selector peer := by
  cases a with
  | all => simp [looked, lookupScope, Atom.Sat]
  | has k => exact mem_looked_key
  | compare k op v =>
    apply mem_looked_label rfl
    · intro pods
      rw [List.map_singleton, labelMatches_compare supported, Atom.Sat, pods, carries_pod]
    · intro own namespaces inside
      rw [List.map_singleton, namespaceMatches_compare supported, Atom.Sat, namespaces,
        carries_namespace inside]
  | member k negated vs =>
    apply mem_looked_label rfl
    · intro pods
      cases negated with
      | false => simp [labelMatches_In, Atom.Sat, Carries, pods]
      | true => simp [labelMatches_NotIn, Atom.Sat, Carries, pods]
    · intro own namespaces inside
      have read : (∃ value ∈ vs.map String.ofList, readCarries own (String.ofList k) value) ↔
          ∃ v ∈ vs, namespaceCarries own (String.ofList k) (String.ofList v) := by
        simp only [List.mem_map, exists_exists_and_eq_and]
        apply exists_congr
        intro v
        apply and_congr_right
        intro listed
        have some : v ≠ [] := fun empty => supported.2 (empty ▸ listed)
        exact readCarries_some some
      cases negated with
      | false =>
        rw [if_neg (by decide), namespaceMatches_In, read]
        simp [Atom.Sat, Carries, namespaces, inside]
      | true =>
        rw [if_pos rfl, namespaceMatches_NotIn, read]
        simp [Atom.Sat, Carries, namespaces, inside]

end Lookups
end Nca.Parsers
