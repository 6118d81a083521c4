import Mathlib.Data.Finset.Union
import Mathlib.Data.List.TakeWhile
import Nca.Parsers.IstioPatterns
import Nca.Parsers.K8sPolicyYamlParser

/-!
The principals of an authorization policy. The patterns are compared with the principals of all
peers, and the peers of a principal that matches are found again by the namespace and the service
account that a regular expression reads from it.
-/

namespace Nca.Parsers
open CoreDS Lib NetworkConfig TopologyPeers

section Model

variable {E : Type} [Fintype E] [DecidableEq E] [TopologyPeers E] (unicode : Char → Bool)
  (peer_container : PeerContainer E)

/-- `cluster.local/ns/{peer.namespace}/sa/{peer.service_account_name}` -/
def principalStr (peer : E) : Str :=
  let ns := ((peer_namespace peer).map K8sNamespace.name).getD "None"
  "cluster.local/ns/".toList ++ (ns.toList ++ ("/sa/".toList ++ (service_account_name peer).toList))

/-- The principals of all peers; only pods have a service account. The order is not used. -/
def getAllPrincipalsStrListFromTopology : Except ParseError (Finset Str) :=
  if ∃ peer ∈ peer_container.getAllPeersGroup, Peers.kind peer ≠ .pod then throw .AttributeError
  else return peer_container.getAllPeersGroup.image principalStr

/-- The values of an enumerated domain that a pattern matches. -/
def parseIstioRegexFromEnumeratedDomain (regex_str : Str)
    (values_list : Except ParseError (Finset Str)) : Except ParseError (Finset Str) := do
  validateIstioRegexPattern regex_str
  let values_list ← values_list
  if '*' ∉ regex_str then return values_list.filter (· = regex_str)
  else if regex_str = ['*'] then return values_list
  else if regex_str.head? = some '*' then return values_list.filter (regex_str.tail <:+ ·)
  else if regex_str.getLast? = some '*' then return values_list.filter (regex_str.dropLast <+: ·)
  else return ∅

/-- `[\w-]` -/
def isNameChar (c : Char) : Bool := isReWord unicode c || c == '-'

/-- `cluster.local/ns/([\w-]+)/sa/([\w-]+)` -/
def principalPattern : Pattern :=
  .seq (.text "cluster".toList) (.seq (.chars (· ≠ '\n')) (.seq (.text "local/ns/".toList)
    (.seq (.group 1 (.plus (.chars (isNameChar unicode)))) (.seq (.text "/sa/".toList)
      (.group 2 (.plus (.chars (isNameChar unicode))))))))

def getPrincipalStrComponents (principal_str : Str) : Option (Str × Str) := do
  let groups ← (principalPattern unicode).search principal_str
  return (← Dict.get groups 1, ← Dict.get groups 2)

/-- The pods of one principal. -/
def principalPods (principal_str : Str) : PeerSet E :=
  match getPrincipalStrComponents unicode principal_str with
  | some (ns, sa_name) =>
    if ns ≠ [] ∧ sa_name ≠ [] then
      peer_container.getPodsWithServiceAccountName (String.ofList sa_name) (String.ofList ns)
    else ∅
  | none => ∅

def parsePrincipalStr (principal : Str) : Except ParseError (PeerSet E) := do
  let principal_str_values ← parseIstioRegexFromEnumeratedDomain principal
    (getAllPrincipalsStrListFromTopology peer_container)
  return principal_str_values.biUnion (principalPods unicode peer_container)

def parsePrincipals (principals_list not_principals_list : Option (List Str)) :
    Except ParseError (PeerSet E) := do
  let res ← match principals_list with
    | none => pure peer_container.getAllPeersGroup
    | some principals_list => principals_list.foldlM (fun res principal =>
        (res ∪ ·) <$> parsePrincipalStr unicode peer_container principal) ∅
  (not_principals_list.getD []).foldlM (fun res principal =>
    (res \ ·) <$> parsePrincipalStr unicode peer_container principal) res

end Model

/-- What a pattern of a policy matches. -/
def PatternMatches (pattern s : Str) : Prop :=
  if '*' ∉ pattern then s = pattern
  else if pattern.head? = some '*' then pattern.tail <:+ s
  else pattern.dropLast <+: s

variable {E : Type} [Fintype E] [DecidableEq E] [TopologyPeers E] {unicode : Char → Bool}
  {peer_container : PeerContainer E} {pattern : Str} {e f : E}

section Names

/-- The names of the namespace and of the service account of a pod are valid names of resources. -/
structure ValidNames (peer_container : PeerContainer E) : Prop where
  namespaces : ∀ e ∈ peer_container.peer_set, ∀ ns, peer_namespace e = some ns →
    dnsLabel.fullmatch ns.name.toList = true
  accounts : ∀ e ∈ peer_container.peer_set, Peers.kind e = .pod →
    dnsSubdomain.fullmatch (service_account_name e).toList = true

/-- The part of the name of a service account before its first dot. -/
def accountHead (e : E) : Str := (service_account_name e).toList.takeWhile (· ≠ '.')

theorem dnsLabel_spells {u : Str} {g : Pattern.Groups} (spells : Pattern.Spells dnsLabel u g) :
    u ≠ [] ∧ ∀ c ∈ u, isLowerAlnum c = true ∨ c = '-' := by
  constructor
  · rintro rfl
    obtain ⟨v, w, _, _, whole, _, first, _⟩ := Pattern.spells_seq.mp spells
    obtain ⟨c, _, rfl, _⟩ := Pattern.spells_chars.mp first
    cases whole
  · apply Pattern.spells_within (p := fun c => isLowerAlnum c = true ∨ c = '-') spells
    have lower : ∀ c, isLowerAlnum c = true → isLowerAlnum c = true ∨ c = '-' := fun c => Or.inl
    refine ⟨lower, ⟨fun c member => ?_, lower⟩, trivial⟩
    rw [Bool.or_eq_true, beq_iff_eq] at member
    exact member.symm

theorem nameChar_of_label {c : Char} (valid : isLowerAlnum c = true ∨ c = '-') :
    isNameChar unicode c = true := by
  rcases valid with lower | rfl
  · rw [isLowerAlnum, Bool.or_eq_true, decide_eq_true_iff] at lower
    have letter : c.isAlphanum = true := by
      apply Bool.or_eq_true_iff.mpr
      rcases lower with ⟨least, most⟩ | digit
      · have small : c.isLower = true :=
          Bool.and_eq_true_iff.mpr ⟨decide_eq_true least, decide_eq_true most⟩
        exact Or.inl (Bool.or_eq_true_iff.mpr (Or.inr small))
      · exact Or.inr digit
    simp [isNameChar, isReWord, isWordChar, letter]
  · simp [isNameChar]

theorem dnsSubdomain_split {s : Str} (valid : dnsSubdomain.fullmatch s = true) :
    s.takeWhile (· ≠ '.') ≠ [] ∧
      ∀ c ∈ s.takeWhile (· ≠ '.'), isLowerAlnum c = true ∨ c = '-' := by
  obtain ⟨g, spells⟩ := Pattern.fullmatch_iff.mp valid
  constructor
  · obtain ⟨v, w, _, _, rfl, _, first, _⟩ := Pattern.spells_seq.mp spells
    obtain ⟨nonEmpty, each⟩ := dnsLabel_spells first
    obtain ⟨c, rest, rfl⟩ := List.exists_cons_of_ne_nil nonEmpty
    have noDot : c ≠ '.' := by
      rintro rfl
      exact absurd (each '.' List.mem_cons_self) (by decide)
    rw [List.cons_append, List.takeWhile_cons_of_pos (by simpa using noDot)]
    exact List.cons_ne_nil _ _
  · have chars : ∀ c ∈ s, (isLowerAlnum c = true ∨ c = '-') ∨ c = '.' := by
      have lower : ∀ c, isLowerAlnum c = true → (isLowerAlnum c = true ∨ c = '-') ∨ c = '.' :=
        fun c letter => Or.inl (Or.inl letter)
      have label : dnsLabel.Within fun c => (isLowerAlnum c = true ∨ c = '-') ∨ c = '.' := by
        refine ⟨lower, ⟨fun c member => ?_, lower⟩, trivial⟩
        rw [Bool.or_eq_true, beq_iff_eq] at member
        exact Or.inl member.symm
      have dot : (Pattern.text ['.']).Within fun c => (isLowerAlnum c = true ∨ c = '-') ∨ c = '.' :=
        ⟨fun c member => Or.inr (eq_of_beq member), trivial⟩
      exact Pattern.spells_within spells ⟨label, dot, label⟩
    intro c inside
    have noDot : c ≠ '.' := by simpa using List.mem_takeWhile_imp inside
    exact (chars c ((List.takeWhile_prefix _).subset inside)).resolve_right noDot

theorem nameChar_stop {c : Char} (stop : c = '/' ∨ c = '.') : isNameChar unicode c = false := by
  rcases stop with rfl | rfl <;> rfl

/-- The regular expression reads the namespace of a principal, and the name of the service account
up to its first dot. -/
theorem components_principal {ns sa : Str} (validNs : dnsLabel.fullmatch ns = true)
    (validSa : dnsSubdomain.fullmatch sa = true) :
    getPrincipalStrComponents unicode
      ("cluster.local/ns/".toList ++ (ns ++ ("/sa/".toList ++ sa))) =
      some (ns, sa.takeWhile (· ≠ '.')) := by
  obtain ⟨g, spells⟩ := Pattern.fullmatch_iff.mp validNs
  obtain ⟨someNs, nsChars⟩ := dnsLabel_spells spells
  obtain ⟨someSa, saChars⟩ := dnsSubdomain_split validSa
  let name : Char → Bool := isNameChar unicode
  have stopNs : ∀ c ∈ ("/sa/".toList ++ sa).head?, name c = false := by
    rintro c ⟨⟩
    exact nameChar_stop (Or.inl rfl)
  have stopSa : ∀ c ∈ (sa.dropWhile (· ≠ '.')).head?, name c = false := by
    intro c found
    have stop := List.head?_dropWhile_not (· ≠ '.') sa
    rw [Option.mem_def.mp found] at stop
    exact nameChar_stop (Or.inr (by simpa using stop))
  have account : ((Pattern.group 2 (.plus (.chars name))).run sa).head? =
      some ([(2, sa.takeWhile (· ≠ '.'))], sa.dropWhile (· ≠ '.')) := by
    have chars : ∀ c ∈ sa.takeWhile (· ≠ '.'), name c = true :=
      fun c inside => nameChar_of_label (saChars c inside)
    have taken := Pattern.head_group_plus (n := 2) someSa chars stopSa
    rwa [List.takeWhile_append_dropWhile] at taken
  have namespace_ : ((Pattern.group 1 (.plus (.chars name))).run
      (ns ++ ("/sa/".toList ++ sa))).head? = some ([(1, ns)], "/sa/".toList ++ sa) :=
    Pattern.head_group_plus someNs (fun c inside => nameChar_of_label (nsChars c inside)) stopNs
  have dot (w : Str) : ((Pattern.chars (· ≠ '\n')).run ('.' :: w)).head? = some ([], w) := rfl
  have found : ((principalPattern unicode).run
      ("cluster".toList ++ ('.' :: ("local/ns/".toList ++ (ns ++ ("/sa/".toList ++ sa)))))).head? =
      some ([(1, ns), (2, sa.takeWhile (· ≠ '.'))], sa.dropWhile (· ≠ '.')) := by
    have behind := Pattern.head_seq namespace_ (Pattern.head_seq Pattern.head_text account)
    apply Pattern.head_seq Pattern.head_text
    apply Pattern.head_seq (dot _)
    exact Pattern.head_seq Pattern.head_text behind
  have read := Pattern.search_front found
  rw [getPrincipalStrComponents]
  show (do
    let groups ← (principalPattern unicode).search
      ("cluster".toList ++ ('.' :: ("local/ns/".toList ++ (ns ++ ("/sa/".toList ++ sa)))))
    return (← Dict.get groups 1, ← Dict.get groups 2)) = _
  rw [read]
  rfl

end Names

section Lookup

def namespaceOf (e : E) : Option String := (peer_namespace e).map K8sNamespace.name

omit [Fintype E] [DecidableEq E] in
theorem principalStr_eq {ns : K8sNamespace} (own : peer_namespace e = some ns) :
    principalStr e = "cluster.local/ns/".toList ++
      (ns.name.toList ++ ("/sa/".toList ++ (service_account_name e).toList)) := by
  unfold principalStr
  rw [own]
  rfl

/-- The pod is found by the principal of another pod. -/
structure FoundBy (peer_container : PeerContainer E) (f e : E) : Prop where
  known : e ∈ peer_container.peer_set
  pod : Peers.kind e = .pod
  same_namespace : namespaceOf e = namespaceOf f
  account : (service_account_name e).toList = accountHead f

omit [Fintype E] [DecidableEq E] in
theorem mem_principalPods {s : Str} (names : ValidNames peer_container)
    (known : f ∈ peer_container.peer_set) (pod : Peers.kind f = .pod) (printed : principalStr f = s) :
    e ∈ principalPods unicode peer_container s ↔ FoundBy peer_container f e := by
  obtain ⟨ns, own⟩ := pod_namespace f pod
  have validNs := names.namespaces f known ns own
  have validSa := names.accounts f known pod
  have read : getPrincipalStrComponents unicode s = some (ns.name.toList, accountHead f) := by
    rw [← printed, principalStr_eq own]
    exact components_principal validNs validSa
  have someNs : ns.name.toList ≠ [] := by
    obtain ⟨g, spells⟩ := Pattern.fullmatch_iff.mp validNs
    exact (dnsLabel_spells spells).1
  have someSa : accountHead f ≠ [] := (dnsSubdomain_split validSa).1
  rw [principalPods, read]
  dsimp only
  rw [if_pos ⟨someNs, someSa⟩, String.ofList_toList, PeerContainer.getPodsWithServiceAccountName,
    Finset.mem_filter]
  simp only [Bool.and_eq_true, decide_eq_true_iff, beq_iff_eq, Option.any_eq_true]
  constructor
  · rintro ⟨inside, isPod, account, own', found, same⟩
    refine ⟨inside, isPod, ?_, ?_⟩
    · rw [namespaceOf, namespaceOf, found, own, Option.map_some, Option.map_some, same]
    · rw [account, String.toList_ofList]
  · intro ⟨inside, isPod, same, account⟩
    obtain ⟨own', found⟩ := pod_namespace e isPod
    rw [namespaceOf, namespaceOf, found, own] at same
    refine ⟨inside, isPod, ?_, own', found, Option.some.inj same⟩
    rw [← account, String.ofList_toList]

theorem validate_of_shape (shape : StarShape pattern) :
    validateIstioRegexPattern pattern = .ok () := by
  unfold validateIstioRegexPattern
  rw [if_neg]
  · rfl
  · rintro ⟨star, illegal⟩
    apply illegal
    rcases shape with none | ⟨x, rfl, once⟩ | ⟨x, rfl, once⟩
    · exact (none star).elim
    · rw [List.count_cons_self, List.count_eq_zero.mpr once]
      exact ⟨rfl, Or.inl rfl⟩
    · rw [List.count_append, List.count_eq_zero.mpr once]
      exact ⟨rfl, Or.inr (List.getLast?_concat)⟩

/-- The values that are enumerated for a pattern are those that it matches. -/
theorem enumerated_ok {values : Finset Str} (shape : StarShape pattern) :
    ∃ found, parseIstioRegexFromEnumeratedDomain pattern (.ok values) = .ok found ∧
      ∀ s, s ∈ found ↔ s ∈ values ∧ PatternMatches pattern s := by
  unfold parseIstioRegexFromEnumeratedDomain PatternMatches
  rw [validate_of_shape shape]
  simp only [ok_bind]
  by_cases noStar : '*' ∉ pattern
  · rw [if_pos noStar]
    refine ⟨_, rfl, fun s => ?_⟩
    rw [if_pos noStar, Finset.mem_filter]
  · rw [if_neg noStar]
    by_cases alone : pattern = ['*']
    · rw [if_pos alone]
      refine ⟨_, rfl, fun s => ?_⟩
      simp [alone]
    · rw [if_neg alone]
      by_cases head : pattern.head? = some '*'
      · rw [if_pos head]
        refine ⟨_, rfl, fun s => ?_⟩
        rw [if_neg noStar, if_pos head, Finset.mem_filter]
      · have last : pattern.getLast? = some '*' := by
          rcases shape with none | ⟨x, rfl, _⟩ | ⟨x, rfl, _⟩
          · exact (noStar none).elim
          · exact (head rfl).elim
          · exact List.getLast?_concat
        rw [if_neg head, if_pos last]
        refine ⟨_, rfl, fun s => ?_⟩
        rw [if_neg noStar, if_neg head, Finset.mem_filter]

/-- The principal of a pod matches one of the patterns. -/
def Matched (patterns : List Str) (e : E) : Prop :=
  Peers.kind e = .pod ∧ ∃ p ∈ patterns, PatternMatches p (principalStr e)

variable (names : ValidNames peer_container)

include names in
theorem parsePrincipalStr_pods (pods : ∀ e ∈ peer_container.getAllPeersGroup, Peers.kind e = .pod)
    (shape : StarShape pattern) :
    ∃ res, parsePrincipalStr unicode peer_container pattern = .ok res ∧
      ∀ e, e ∈ res ↔ ∃ f ∈ peer_container.getAllPeersGroup,
        PatternMatches pattern (principalStr f) ∧ FoundBy peer_container f e := by
  let group := peer_container.getAllPeersGroup
  have all : getAllPrincipalsStrListFromTopology peer_container =
      .ok (group.image principalStr) := by
    unfold getAllPrincipalsStrListFromTopology
    rw [if_neg]
    · rfl
    · rintro ⟨e, inside, other⟩
      exact other (pods e inside)
  have enumerated : ∃ found, parseIstioRegexFromEnumeratedDomain pattern
      (.ok (group.image principalStr)) = .ok found ∧
      ∀ s, s ∈ found ↔ s ∈ group.image principalStr ∧ PatternMatches pattern s :=
    enumerated_ok shape
  obtain ⟨found, read, values⟩ := enumerated
  unfold parsePrincipalStr
  rw [all, read, ok_bind]
  refine ⟨_, rfl, fun e => ?_⟩
  have union : e ∈ found.biUnion (principalPods unicode peer_container) ↔
      ∃ s ∈ found, e ∈ principalPods unicode peer_container s := Finset.mem_biUnion
  apply union.trans
  constructor
  · intro ⟨s, inside, listed⟩
    obtain ⟨printed, matched⟩ := (values s).mp inside
    obtain ⟨f, member, same⟩ := Finset.mem_image.mp printed
    have known := (PeerContainer.mem_group.mp member).1
    rw [mem_principalPods names known (pods f member) same] at listed
    rw [← same] at matched
    exact ⟨f, member, matched, listed⟩
  · intro ⟨f, member, matched, foundBy⟩
    have known := (PeerContainer.mem_group.mp member).1
    obtain ⟨s, same⟩ : ∃ s, principalStr f = s := ⟨_, rfl⟩
    have printed : s ∈ group.image principalStr := Finset.mem_image.mpr ⟨f, member, same⟩
    rw [same] at matched
    refine ⟨s, (values s).mpr ⟨printed, matched⟩, ?_⟩
    rw [mem_principalPods names known (pods f member) same]
    exact foundBy

omit [DecidableEq E] in
theorem parsePrincipalStr_host [DecidableEq E]
    (host : ∃ e ∈ peer_container.getAllPeersGroup, Peers.kind e ≠ .pod)
    (shape : StarShape pattern) :
    parsePrincipalStr unicode peer_container pattern = .error .AttributeError := by
  unfold parsePrincipalStr parseIstioRegexFromEnumeratedDomain getAllPrincipalsStrListFromTopology
  rw [validate_of_shape shape, if_pos host]
  rfl

/-- The pods that a list of patterns is parsed to. -/
def Reached (peer_container : PeerContainer E) (patterns : List Str) (e : E) : Prop :=
  ∃ f ∈ peer_container.getAllPeersGroup, Matched patterns f ∧ FoundBy peer_container f e

/-- The pods that the principals of a source are parsed to. -/
def ReachedOnly (peer_container : PeerContainer E) (principals nots : Option (List Str)) (e : E) :
    Prop :=
  (match principals with
    | none => e ∈ peer_container.getAllPeersGroup
    | some ps => Reached peer_container ps e) ∧ ¬ Reached peer_container (nots.getD []) e

include names in
theorem parsePrincipals_pods {principals nots : Option (List Str)}
    (pods : ∀ e ∈ peer_container.getAllPeersGroup, Peers.kind e = .pod)
    (shapes : ∀ p ∈ principals.getD [] ++ nots.getD [], StarShape p) :
    ∃ res, parsePrincipals unicode peer_container principals nots = .ok res ∧
      ∀ e, e ∈ res ↔ ReachedOnly peer_container principals nots e := by
  let parsed (p : Str) : PeerSet E :=
    (parsePrincipalStr unicode peer_container p).toOption.getD ∅
  have spec : ∀ p, StarShape p →
      parsePrincipalStr unicode peer_container p = .ok (parsed p) ∧ ∀ e, e ∈ parsed p ↔
        ∃ f ∈ peer_container.getAllPeersGroup,
          PatternMatches p (principalStr f) ∧ FoundBy peer_container f e := by
    intro p shape
    have enumerated : ∃ res, parsePrincipalStr unicode peer_container p = .ok res ∧
        ∀ e, e ∈ res ↔ ∃ f ∈ peer_container.getAllPeersGroup,
          PatternMatches p (principalStr f) ∧ FoundBy peer_container f e :=
      parsePrincipalStr_pods names pods shape
    obtain ⟨res, read, members⟩ := enumerated
    have same : parsed p = res := by
      show (parsePrincipalStr unicode peer_container p).toOption.getD ∅ = res
      rw [read]
      rfl
    rw [same]
    exact ⟨read, members⟩
  have reached : ∀ ps : List Str, (∀ p ∈ ps, StarShape p) → ∀ e,
      (∃ p ∈ ps, e ∈ parsed p) ↔ Reached peer_container ps e := by
    intro ps shape e
    constructor
    · intro ⟨p, listed, inside⟩
      obtain ⟨f, known, matched, found⟩ := ((spec p (shape p listed)).2 e).mp inside
      exact ⟨f, known, ⟨pods f known, p, listed, matched⟩, found⟩
    · intro ⟨f, known, ⟨_, p, listed, matched⟩, found⟩
      exact ⟨p, listed, ((spec p (shape p listed)).2 e).mpr ⟨f, known, matched, found⟩⟩
  obtain ⟨shapes, notShapes⟩ := List.forall_mem_append.mp shapes
  have removed : ∀ init : PeerSet E, ∃ res, (nots.getD []).foldlM (fun res principal =>
      (res \ ·) <$> parsePrincipalStr unicode peer_container principal) init = .ok res ∧
      ∀ e, e ∈ res ↔ e ∈ init ∧ ¬ Reached peer_container (nots.getD []) e := by
    intro init
    refine ⟨_, foldlM_values fun p listed => (spec p (notShapes p listed)).1, fun e => ?_⟩
    rw [← reached _ notShapes]
    have folded := @ExactSet.mem_foldl_sdiff _ _ _ _ parsed (nots.getD []) init e
    simpa only [ExactSet.mem_iff_contains, ExactSet.mem_finset] using folded
  unfold parsePrincipals
  cases principals with
  | none => exact removed _
  | some ps =>
    have added : ps.foldlM (fun res principal =>
        (res ∪ ·) <$> parsePrincipalStr unicode peer_container principal) ∅ = .ok
        (ps.foldl (fun res p => res ∪ parsed p) ∅) :=
      foldlM_values fun p listed => (spec p (shapes p listed)).1
    obtain ⟨res, read, members⟩ := removed (ps.foldl (fun res p => res ∪ parsed p) ∅)
    refine ⟨res, ?_, fun e => ?_⟩
    · simp only [added, ok_bind]
      exact read
    · rw [members e]
      have union : e ∈ ps.foldl (fun res p => res ∪ parsed p) ∅ ↔ ∃ p ∈ ps, e ∈ parsed p := by
        have folded := @ExactSet.mem_foldl_union _ _ _ _ parsed ps ∅ e
        simpa only [ExactSet.mem_iff_contains, ExactSet.mem_finset, Finset.notMem_empty,
          false_or] using folded
      rw [union, reached ps shapes]
      exact Iff.rfl

end Lookup

section Verdicts

/-- The name of the service account has a dot. -/
def Dotted (e : E) : Prop := '.' ∈ (service_account_name e).toList

/-- The pod matches the principals of a source. -/
def Positive (principals : Option (List Str)) (e : E) : Prop :=
  ∀ ps, principals = some ps → Matched ps e

/-- A pod with a dotted account whose principal is read as that of the pod. -/
def Shadows (peer_container : PeerContainer E) (f e : E) : Prop :=
  f ∈ peer_container.getAllPeersGroup ∧ Dotted f ∧ FoundBy peer_container f e

omit [Fintype E] [DecidableEq E] in
theorem accountHead_plain (plain : ¬ Dotted e) : accountHead e = (service_account_name e).toList := by
  apply List.takeWhile_eq_self_iff.mpr
  intro c inside
  apply decide_eq_true
  rintro rfl
  exact plain inside

omit [Fintype E] [DecidableEq E] in
theorem not_dotted_of_found (found : FoundBy peer_container f e) : ¬ Dotted e := by
  intro dot
  rw [Dotted, found.account] at dot
  simpa using List.mem_takeWhile_imp dot

omit [Fintype E] [DecidableEq E] in
theorem principalStr_found (plain : ¬ Dotted f) (pod : Peers.kind f = .pod)
    (found : FoundBy peer_container f e) : principalStr f = principalStr e := by
  obtain ⟨ns, own⟩ := pod_namespace f pod
  obtain ⟨ns', own'⟩ := pod_namespace e found.pod
  have same := found.same_namespace
  rw [namespaceOf, namespaceOf, own, own', Option.map_some, Option.map_some] at same
  rw [principalStr_eq own, principalStr_eq own', found.account, accountHead_plain plain,
    Option.some.inj same]

/-- A pod is reached by its own principal, unless the name of its account has a dot, and by the
principals that shadow it. -/
theorem reached_iff {patterns : List Str}
    (pods : ∀ e ∈ peer_container.getAllPeersGroup, Peers.kind e = .pod) :
    Reached peer_container patterns e ↔ e ∈ peer_container.getAllPeersGroup ∧ ¬ Dotted e ∧
      (Matched patterns e ∨ ∃ f, Shadows peer_container f e ∧ Matched patterns f) := by
  constructor
  · intro ⟨f, member, matched, found⟩
    have inside : e ∈ peer_container.getAllPeersGroup := by
      apply PeerContainer.mem_group.mpr
      refine ⟨found.known, ?_⟩
      rw [found.pod]
      decide
    refine ⟨inside, not_dotted_of_found found, ?_⟩
    by_cases dot : Dotted f
    · exact Or.inr ⟨f, ⟨member, dot, found⟩, matched⟩
    · obtain ⟨pod, p, listed, fits⟩ := matched
      rw [principalStr_found dot pod found] at fits
      exact Or.inl ⟨found.pod, p, listed, fits⟩
  · intro ⟨inside, plain, reason⟩
    rcases reason with matched | ⟨f, ⟨member, _, found⟩, matched⟩
    · refine ⟨e, inside, matched, (PeerContainer.mem_group.mp inside).1, pods e inside, rfl, ?_⟩
      exact (accountHead_plain plain).symm
    · exact ⟨f, member, matched, found⟩

/-- When the principals of the pods of a source are read back to the same pods. -/
structure Recovered (peer_container : PeerContainer E) (principals nots : Option (List Str)) :
    Prop where
  only_pods : principals.getD [] ++ nots.getD [] ≠ [] →
    ∀ e ∈ peer_container.getAllPeersGroup, Peers.kind e = .pod
  dotted_given : principals ≠ none → ∀ e ∈ peer_container.getAllPeersGroup, Dotted e →
    Positive principals e → Matched (nots.getD []) e
  dotted_absent : principals = none → ∀ e ∈ peer_container.getAllPeersGroup, Dotted e →
    ¬ Matched (nots.getD []) e
  spared : ∀ e ∈ peer_container.getAllPeersGroup, ¬ Dotted e → ¬ Matched (nots.getD []) e →
    Positive principals e → ∀ f, Shadows peer_container f e → ¬ Matched (nots.getD []) f
  foreign : ∀ e ∈ peer_container.getAllPeersGroup, ¬ Dotted e → ¬ Matched (nots.getD []) e →
    ¬ Positive principals e → ∀ f, Shadows peer_container f e → Positive principals f →
    ∃ g, Shadows peer_container g e ∧ Matched (nots.getD []) g

theorem parsePrincipals_host {principals nots : Option (List Str)}
    (host : ∃ e ∈ peer_container.getAllPeersGroup, Peers.kind e ≠ .pod)
    (shapes : ∀ p ∈ principals.getD [] ++ nots.getD [], StarShape p)
    (some : principals.getD [] ++ nots.getD [] ≠ []) :
    parsePrincipals unicode peer_container principals nots = .error .AttributeError := by
  have fails : ∀ p ∈ principals.getD [] ++ nots.getD [],
      parsePrincipalStr unicode peer_container p = .error .AttributeError :=
    fun p listed => parsePrincipalStr_host host (shapes p listed)
  have removed : ∀ init : PeerSet E, nots.getD [] ≠ [] →
      (nots.getD []).foldlM (fun res principal =>
        (res \ ·) <$> parsePrincipalStr unicode peer_container principal) init =
      .error .AttributeError := by
    intro init nonEmpty
    obtain ⟨p, rest, whole⟩ := List.exists_cons_of_ne_nil nonEmpty
    have first := fails p (List.mem_append_right _ (whole ▸ List.mem_cons_self))
    rw [whole, List.foldlM_cons, first]
    rfl
  unfold parsePrincipals
  match principals with
  | none => exact removed _ some
  | .some [] => exact removed _ some
  | .some (p :: rest) =>
    have first := fails p (List.mem_append_left _ List.mem_cons_self)
    simp only [List.foldlM_cons, first]
    rfl

section Exact

variable {principals nots : Option (List Str)}
  (pods : ∀ e ∈ peer_container.getAllPeersGroup, Peers.kind e = .pod)

/-- The pod is one that the principals of a source stand for. -/
def Meant (peer_container : PeerContainer E) (principals nots : Option (List Str)) (e : E) : Prop :=
  e ∈ peer_container.getAllPeersGroup ∧ Positive principals e ∧ ¬ Matched (nots.getD []) e

omit [Fintype E] [DecidableEq E] in
theorem positive_none : Positive none e := fun _ given => nomatch given

omit [Fintype E] [DecidableEq E] in
theorem positive_some {ps : List Str} : Positive (some ps) e ↔ Matched ps e := by
  simp [Positive]

include pods in
theorem recovered_of_exact
    (exact : ∀ e, ReachedOnly peer_container principals nots e ↔
      Meant peer_container principals nots e) :
    Recovered peer_container principals nots := by
  simp only [ReachedOnly, Meant, reached_iff pods] at exact
  refine ⟨fun _ => pods, ?_, ?_, ?_, ?_⟩
  · intro given e inside dot positive
    obtain ⟨ps, rfl⟩ := Option.ne_none_iff_exists'.mp given
    have verdict := exact e
    dsimp only at verdict
    tauto
  · rintro rfl e inside dot
    have verdict := exact e
    have positive := positive_none (e := e)
    dsimp only at verdict
    tauto
  · intro e inside plain kept positive f shadows removed
    have verdict := (exact e).mpr ⟨inside, positive, kept⟩
    exact verdict.2 ⟨inside, plain, Or.inr ⟨f, shadows, removed⟩⟩
  · intro e inside plain kept negative f shadows positive
    match principals with
    | none => exact (negative positive_none).elim
    | some ps =>
      by_contra untouched
      have reached : Matched ps e ∨ ∃ f, Shadows peer_container f e ∧ Matched ps f :=
        Or.inr ⟨f, shadows, positive_some.mp positive⟩
      refine negative ((exact e).mp ⟨⟨inside, plain, reached⟩, ?_⟩).2.1
      intro ⟨_, _, removed⟩
      exact removed.elim kept untouched

include pods in
theorem exact_of_recovered (recovered : Recovered peer_container principals nots) :
    ReachedOnly peer_container principals nots e ↔ Meant peer_container principals nots e := by
  simp only [ReachedOnly, Meant, reached_iff pods]
  have spared := recovered.spared e
  match principals with
  | none =>
    have dotted := recovered.dotted_absent rfl
    have positive := positive_none (e := e)
    have shadowed : ¬ ∃ f, Shadows peer_container f e ∧ Matched (nots.getD []) f :=
      fun ⟨f, shadows, removed⟩ => dotted f shadows.1 shadows.2.1 removed
    have kept := dotted e
    dsimp only
    tauto
  | some ps =>
    have dotted := recovered.dotted_given (Option.some_ne_none ps) e
    have foreign := recovered.foreign e
    simp only [positive_some] at dotted spared foreign ⊢
    constructor
    · intro ⟨⟨inside, plain, reached⟩, kept⟩
      have unmatched : ¬ Matched (nots.getD []) e := fun removed => kept ⟨inside, plain, Or.inl removed⟩
      refine ⟨inside, ?_, unmatched⟩
      by_contra negative
      obtain ⟨f, shadows, positive⟩ := reached.resolve_left negative
      have removed := foreign inside plain unmatched negative f shadows positive
      exact kept ⟨inside, plain, Or.inr removed⟩
    · intro ⟨inside, positive, kept⟩
      have plain : ¬ Dotted e := fun dot => kept (dotted inside dot positive)
      refine ⟨⟨inside, plain, Or.inl positive⟩, ?_⟩
      intro ⟨_, _, removed⟩
      obtain ⟨f, shadows, matched⟩ := removed.resolve_left kept
      exact spared inside plain kept positive f shadows matched

omit [Fintype E] [DecidableEq E] in
theorem not_matched_nil : ¬ Matched [] e := fun ⟨_, _, listed, _⟩ => List.not_mem_nil listed

/-- Without a pattern the peers are all peers, or none. -/
theorem parsePrincipals_empty (empty : principals.getD [] ++ nots.getD [] = []) :
    ∃ res, parsePrincipals unicode peer_container principals nots = .ok res ∧
      ∀ e, e ∈ res ↔ Meant peer_container principals nots e := by
  obtain ⟨noPrincipals, noNots⟩ := List.append_eq_nil_iff.mp empty
  unfold parsePrincipals
  rw [noNots]
  match principals, noPrincipals with
  | none, _ => exact ⟨_, rfl, fun e => by simp [Meant, positive_none, noNots, not_matched_nil]⟩
  | some [], _ => exact ⟨_, rfl, fun e => by simp [Meant, positive_some, not_matched_nil]⟩

theorem recovered_empty (empty : principals.getD [] ++ nots.getD [] = []) :
    Recovered peer_container principals nots := by
  obtain ⟨noPrincipals, noNots⟩ := List.append_eq_nil_iff.mp empty
  refine ⟨fun some => (some empty).elim, ?_, ?_, ?_, ?_⟩
  · intro given e _ _ positive
    obtain ⟨ps, rfl⟩ := Option.ne_none_iff_exists'.mp given
    have matched : Matched ps e := positive_some.mp positive
    have none : ps = [] := noPrincipals
    rw [none] at matched
    exact (not_matched_nil matched).elim
  · rw [noNots]
    exact fun _ e _ _ => not_matched_nil
  · rw [noNots]
    exact fun e _ _ _ _ f _ => not_matched_nil
  · intro e _ _ _ negative f _ positive
    match principals, noPrincipals with
    | none, _ => exact (negative positive_none).elim
    | some [], _ => exact (not_matched_nil (positive_some.mp positive)).elim

/-- The pods whose principals match are the parsed peers if and only if all peers are pods and no
account with a dot in its name makes a difference. -/
theorem parsePrincipals_iff (names : ValidNames peer_container)
    (shapes : ∀ p ∈ principals.getD [] ++ nots.getD [], StarShape p) :
    (∃ res, parsePrincipals unicode peer_container principals nots = .ok res ∧ ∀ e, e ∈ res ↔
      Meant peer_container principals nots e) ↔ Recovered peer_container principals nots := by
  by_cases empty : principals.getD [] ++ nots.getD [] = []
  · exact iff_of_true (parsePrincipals_empty empty) (recovered_empty empty)
  · by_cases pods : ∀ e ∈ peer_container.getAllPeersGroup, Peers.kind e = .pod
    · have reached : ∃ res, parsePrincipals unicode peer_container principals nots = .ok res ∧
          ∀ e, e ∈ res ↔ ReachedOnly peer_container principals nots e :=
        parsePrincipals_pods names pods shapes
      obtain ⟨res, parsed, members⟩ := reached
      rw [parsed]
      constructor
      · intro ⟨_, read, exact⟩
        cases Except.ok.inj read
        exact recovered_of_exact pods fun e => (members e).symm.trans (exact e)
      · intro recovered
        exact ⟨res, rfl, fun e => (members e).trans (exact_of_recovered pods recovered)⟩
    · apply iff_of_false
      · push Not at pods
        intro ⟨res, parsed, _⟩
        rw [parsePrincipals_host pods shapes empty] at parsed
        cases parsed
      · exact fun recovered => pods (recovered.only_pods empty)

end Exact

section Shop

/-- The pods of a shop; the service account of the second one has a dot in its name. -/
inductive ShopPod where
  | web | canary
  deriving DecidableEq, Repr

instance : Fintype ShopPod := ⟨{.web, .canary}, by intro e; cases e <;> decide⟩

def shop : K8sNamespace := ⟨"shop", fun _ => none⟩

instance : TopologyPeers ShopPod where
  kind _ := .pod
  ipv6 _ := false
  peer_namespace _ := some shop
  labels _ _ := none
  extra_labels _ _ := none
  service_account_name
    | .web => "web"
    | .canary => "web.v1"
  is_global_peer _ := false
  pod_namespace _ _ := ⟨shop, rfl⟩

def shopPods : PeerContainer ShopPod := ⟨{.web, .canary}⟩

theorem shopPods_names : ValidNames shopPods where
  namespaces e _ ns own := by
    rw [← Option.some.inj own]
    decide
  accounts e _ _ := by
    cases e <;> decide

def canaryPrincipal : Str := "cluster.local/ns/shop/sa/web.v1".toList

theorem canaryPrincipal_shape :
    ∀ p ∈ (some [canaryPrincipal]).getD [] ++ (none : Option (List Str)).getD [], StarShape p := by
  intro p listed
  rw [List.mem_singleton.mp listed]
  exact Or.inl (by decide)

theorem canary_iff : (∃ res, parsePrincipals (fun _ => false) shopPods (some [canaryPrincipal]) none =
      .ok res ∧ ∀ e, e ∈ res ↔ Meant shopPods (some [canaryPrincipal]) none e) ↔
      Recovered shopPods (some [canaryPrincipal]) none :=
  parsePrincipals_iff shopPods_names canaryPrincipal_shape

/-- The principal of one pod is read as that of the other one. -/
theorem canary_misread : ∃ res, parsePrincipals (fun _ => false) shopPods (some [canaryPrincipal]) none =
      .ok res ∧ Meant shopPods (some [canaryPrincipal]) none .canary ∧ ShopPod.canary ∉ res ∧
      ¬ Meant shopPods (some [canaryPrincipal]) none .web ∧ ShopPod.web ∈ res := by
  refine ⟨_, rfl, ⟨by decide, ?_, not_matched_nil⟩, by decide, ?_, by decide⟩
  · exact positive_some.mpr ⟨rfl, canaryPrincipal, List.mem_cons_self, rfl⟩
  · intro ⟨_, positive, _⟩
    obtain ⟨_, p, listed, fits⟩ := positive_some.mp positive
    rw [List.mem_singleton.mp listed] at fits
    have other : principalStr ShopPod.web ≠ canaryPrincipal := by decide
    exact other fits

end Shop

end Verdicts

end Nca.Parsers
