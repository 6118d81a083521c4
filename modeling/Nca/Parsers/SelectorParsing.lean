import Nca.Parsers.CalicoSelectors

/-!
Parsing a written selector, whichever brackets and gaps it is written with, gives its meaning.
-/

namespace Nca.Parsers
open CoreDS Lib Lib.Texts NetworkConfig TopologyPeers

/-- Peers as a topology builds them: peers that are not global are in a namespace, but for DNS
entries, which have none. -/
class BuiltPeers (E : Type) extends TopologyPeers E where
  namespaced : ∀ e, kind e ≠ .dnsEntry → is_global_peer e = false → (peer_namespace e).isSome = true
  dns_namespace : ∀ e, kind e = .dnsEntry → peer_namespace e = none

variable {O A : Type} [Fintype O] [DecidableEq O] [DecidableEq A] [BuiltPeers O]
  {unicode : Char → Bool} {addresses : O → Finset A} {peer_container : PeerContainer O}
  {ns : Option K8sNamespace} {is_namespace_selector : Bool}
  {e f : Selector} {s t u v : Str} {level : Level} {p : O ⊕ A} {peer : O}

section Points

omit [Fintype O] in
theorem mem_ofPeers {peers : PeerSet O} :
    p ∈ ofPeers addresses peers ↔ ∃ peer ∈ peers, p ∈ points addresses peer :=
  Finset.mem_biUnion

/-- All peers of the universe are among the peers that conjunctions start with. -/
theorem allPeers_subset (member : peer ∈ allPeers peer_container ns is_namespace_selector) :
    peer ∈ peer_container.getPeersGroup (!is_namespace_selector) := by
  unfold allPeers at member
  cases is_namespace_selector with
  | true => exact member
  | false =>
    have group : peer ∈ peer_container.getAllPeersGroup := by
      cases ns with
      | none => exact member
      | some ns =>
        obtain ⟨listed, inside⟩ := Finset.mem_filter.mp member
        rw [PeerContainer.mem_group]
        refine ⟨listed, fun dns => ?_⟩
        simp [PeerContainer.considered, BuiltPeers.dns_namespace peer dns] at inside
    simpa [PeerContainer.getPeersGroup] using group

theorem mem_meaning : p ∈ meaning addresses peer_container ns is_namespace_selector e ↔
    p ∈ ofPeers addresses (allPeers peer_container ns is_namespace_selector) ∧
      Judged addresses peer_container ns is_namespace_selector p e := by
  classical
  exact Finset.mem_filter

theorem meaning_group : ofPeers addresses (peer_container.getPeersGroup (!is_namespace_selector)) ∩
    meaning addresses peer_container ns is_namespace_selector e =
      meaning addresses peer_container ns is_namespace_selector e := by
  apply Finset.inter_eq_right.mpr
  intro p member
  obtain ⟨peer, inside, point⟩ := mem_ofPeers.mp (mem_meaning.mp member).1
  exact mem_ofPeers.mpr ⟨peer, allPeers_subset inside, point⟩

theorem meaning_or : meaning addresses peer_container ns is_namespace_selector (.or e f) =
    meaning addresses peer_container ns is_namespace_selector e ∪
      meaning addresses peer_container ns is_namespace_selector f := by
  apply Finset.ext
  intro p
  rw [Finset.mem_union, mem_meaning, mem_meaning, mem_meaning, ← and_or_left]
  rfl

theorem meaning_and : meaning addresses peer_container ns is_namespace_selector (.and e f) =
    meaning addresses peer_container ns is_namespace_selector e ∩
      meaning addresses peer_container ns is_namespace_selector f := by
  apply Finset.ext
  intro p
  rw [Finset.mem_inter, mem_meaning, mem_meaning, mem_meaning, ← and_and_left]
  rfl

theorem meaning_not : meaning addresses peer_container ns is_namespace_selector (.not e) =
    ofPeers addresses (allPeers peer_container ns is_namespace_selector) \
      meaning addresses peer_container ns is_namespace_selector e := by
  apply Finset.ext
  intro p
  rw [Finset.mem_sdiff, mem_meaning, mem_meaning, Judged]
  tauto

theorem meaning_atom {a : Atom} (supported : a.Supported) :
    meaning addresses peer_container ns is_namespace_selector (.atom a) =
      ofPeers addresses (allPeers peer_container ns is_namespace_selector) ∩
        ofPeers addresses (looked peer_container ns is_namespace_selector a) := by
  apply Finset.ext
  intro p
  have found : p ∈ ofPeers addresses (looked peer_container ns is_namespace_selector a) ↔
      Judged addresses peer_container ns is_namespace_selector p (.atom a) := by
    rw [mem_ofPeers, Judged]
    apply exists_congr
    intro peer
    rw [mem_looked supported]
    tauto
  rw [Finset.mem_inter, mem_meaning, found]

end Points

section Recursion

/-- The parser, called on a piece of a selector. -/
def Parses (unicode : Char → Bool) (addresses : O → Finset A) (peer_container : PeerContainer O)
    (ns : Option K8sNamespace) (is_namespace_selector : Bool) (fuel : Nat) : Prop :=
  ∀ {level e s u v}, Printed level e s → Spaces u → Spaces v → (u ++ (s ++ v)).length < fuel →
    recursiveParseLabelSelector unicode addresses peer_container ns is_namespace_selector fuel
      (u ++ (s ++ v)) = outcome addresses peer_container ns is_namespace_selector e

theorem outcome_or : outcome addresses peer_container ns is_namespace_selector (.or e f) =
    outcome addresses peer_container ns is_namespace_selector e >>= fun first =>
      (first ∪ ·) <$> outcome addresses peer_container ns is_namespace_selector f := by
  unfold outcome
  rw [meaning_or]
  by_cases first : e.Supported <;> by_cases second : f.Supported <;>
    simp [Selector.Supported, first, second, syntaxError] <;> rfl

theorem outcome_and : outcome addresses peer_container ns is_namespace_selector (.and e f) =
    outcome addresses peer_container ns is_namespace_selector e >>= fun first =>
      (first ∩ ·) <$> outcome addresses peer_container ns is_namespace_selector f := by
  unfold outcome
  rw [meaning_and]
  by_cases first : e.Supported <;> by_cases second : f.Supported <;>
    simp [Selector.Supported, first, second, syntaxError] <;> rfl

variable {fuel : Nat} {xs : List Str} {res : PeerSet (O ⊕ A)}

/-- Parsing all pieces between the operators and joining the results. -/
theorem pieces_fold {join : Selector → Selector → Selector}
    {combine : PeerSet (O ⊕ A) → PeerSet (O ⊕ A) → PeerSet (O ⊕ A)}
    (parses : Parses unicode addresses peer_container ns is_namespace_selector fuel)
    (assoc : ∀ a b c, combine (combine a b) c = combine a (combine b c))
    (joined : ∀ e f, outcome addresses peer_container ns is_namespace_selector (join e f) =
      outcome addresses peer_container ns is_namespace_selector e >>= fun first =>
        combine first <$> outcome addresses peer_container ns is_namespace_selector f)
    (pieces : Pieces join level e xs) (short : ∀ x ∈ xs, x.length < fuel) :
    xs.foldlM (fun res expr => combine res <$> recursiveParseLabelSelector unicode addresses
        peer_container ns is_namespace_selector fuel expr) res =
      combine res <$> outcome addresses peer_container ns is_namespace_selector e := by
  induction pieces generalizing res with
  | one inner left right =>
    rw [List.foldlM_cons, parses inner left right (short _ List.mem_cons_self)]
    exact bind_pure _
  | @both e f xs ys _ _ ih ih' =>
    obtain ⟨early, late⟩ := List.forall_mem_append.mp short
    have second : (fun res => ys.foldlM (fun res expr => combine res <$> recursiveParseLabelSelector
        unicode addresses peer_container ns is_namespace_selector fuel expr) res) =
        fun res => combine res <$> outcome addresses peer_container ns is_namespace_selector f :=
      funext fun res => ih' late
    rw [List.foldlM_append, ih early, second, joined]
    cases outcome addresses peer_container ns is_namespace_selector e with
    | error err => rfl
    | ok first =>
      cases outcome addresses peer_container ns is_namespace_selector f with
      | error err => rfl
      | ok second => exact congrArg Except.ok (assoc res first second)

omit [Fintype O] [DecidableEq O] [DecidableEq A] [BuiltPeers O] in
theorem stripSelector_printed (printed : Printed level e s) (left : Spaces u) (right : Spaces v) :
    ∃ t, stripSelector (u ++ (s ++ v)) = .ok t ∧ Form e t ∧ t.length ≤ s.length := by
  have shape := printed_shape printed
  obtain ⟨t, stripped, form, less⟩ := stripBrackets_printed printed (Nat.le_refl _)
  refine ⟨t, ?_, form, less⟩
  have even : s.count '(' = s.count ')' := by
    have balanced := shape.balanced
    unfold bracketCount at balanced
    omega
  have fine : ∀ message, syntaxErrorIf (s.count '(' ≠ s.count ')') message = .ok () :=
    fun _ => syntaxErrorIf_ok.mpr (not_not.mpr even)
  rw [stripSelector, shape.toClosed.strip_padded left right, fine, ok_bind, stripped]
  rfl

/-- `global()` does not occur in a written selector. -/
theorem noGlobals (printed : Printed level e s) (left : Spaces u) (right : Spaces v) :
    ¬ "global()".toList <:+: u ++ (s ++ v) := by
  have closed := (printed_shape printed).toClosed
  apply quiet_global
  apply quiet_append (quiet_plain (plain_spaces left))
  · apply quiet_append closed.quiet (quiet_plain (plain_spaces right))
    intro c found
    obtain ⟨d, same, _, other⟩ := closed.last
    rwa [Option.mem_unique found same]
  · intro c found
    have space := left c (List.mem_of_getLast? found)
    constructor <;>
    · rintro rfl
      exact absurd space (by decide)

omit [Fintype O] [DecidableEq O] [DecidableEq A] [BuiltPeers O] in
theorem several {join join' : Selector → Selector → Selector} {level' : Level} {ys : List Str}
    (first : Pieces join level e xs) (second : Pieces join' level' f ys) :
    (xs ++ ys).length ≠ 1 := by
  have some := List.length_pos_of_ne_nil (pieces_ne_nil first)
  have some' := List.length_pos_of_ne_nil (pieces_ne_nil second)
  rw [List.length_append]
  omega

/-- Parsing a written selector, with spaces around it, gives the outcome of the selector. -/
theorem recursive_printed :
    Parses unicode addresses peer_container ns is_namespace_selector fuel := by
  induction fuel with
  | zero =>
    intro level e s u v printed left right short
    omega
  | succ fuel ih =>
    intro level e s u v printed left right short
    obtain ⟨t, stripped, form, less⟩ := stripSelector_printed printed left right
    have small : t.length ≤ fuel := by
      simp only [List.length_append] at short
      omega
    have globals : (!is_namespace_selector || decide ("global()".toList <:+: u ++ (s ++ v))) =
        !is_namespace_selector := by
      rw [decide_eq_false (noGlobals printed left right), Bool.or_false]
    rw [recursiveParseLabelSelector, globals, stripped, ok_bind]
    cases form with
    | @atom a t text =>
      have solid := solid_atom text
      have bars : splitSelector t '|' '|' = [t] :=
        splitSelector_one (passes_plain solid.bars) solid.balanced
      have ands : splitSelector t '&' '&' = [t] :=
        splitSelector_one (passes_plain solid.ands) solid.balanced
      simp only [bars, ands, List.length_singleton, ne_eq, not_true_eq_false, if_false,
        List.headD_cons]
      split
      · exact (solid.ne_nil rfl).elim
      · obtain ⟨c, found, word⟩ := solid.head
        exact ((ne_of_word word).2 (Option.some.inj found).symm).elim
      · rw [parse_atom text, outcome]
        show (if a.Supported then _ else _) = if a.Supported then _ else _
        split
        · rename_i supported
          rw [meaning_atom supported]
        · rfl
    | @not e w rest gap inner =>
      have shape := printed_shape (Printed.not gap inner)
      have bars := splitSelector_one shape.bars shape.balanced
      have ands := splitSelector_one shape.ands shape.balanced
      simp only [bars, ands, List.length_singleton, ne_eq, not_true_eq_false, if_false]
      have parsed := ih inner gap (List.forall_mem_nil _) (by
        simp only [List.length_append, List.length_cons, List.length_nil] at small ⊢
        omega)
      rw [List.append_nil] at parsed
      have all : (if is_namespace_selector then peer_container.getPeersGroup (!is_namespace_selector)
          else peer_container.getNamespacePods ns) =
          allPeers peer_container ns is_namespace_selector := by
        unfold allPeers
        cases is_namespace_selector <;> rfl
      rw [parsed, all, outcome, outcome]
      show _ <$> (if e.Supported then _ else _) = if e.Supported then _ else _
      split
      · rw [meaning_not]
        rfl
      · rfl
    | @and e f s' u' v' t' first left right second =>
      have shape := printed_shape (Printed.and first left right second)
      have bars := splitSelector_one shape.bars shape.balanced
      obtain ⟨xs, ys, split, pieces, pieces', shorter⟩ := splitSelector_both
        (conjunction_walks first) (conjunction_walks second) left right (by decide)
      simp only [bars, split, List.length_singleton, ne_eq, not_true_eq_false, if_false]
      have fine : ∀ x ∈ xs ++ ys, x.length < fuel := fun x listed => by
        have bound := shorter x listed
        omega
      rw [if_pos (several pieces pieces'), pieces_fold ih Finset.inter_assoc
        (fun e f => outcome_and) (.both pieces pieces') fine, outcome]
      split
      · exact congrArg Except.ok meaning_group
      · rfl
    | or first left right second =>
      obtain ⟨xs, ys, split, pieces, pieces', shorter⟩ := splitSelector_both
        (alternatives_walks first) (alternatives_walks second) left right (by decide)
      simp only [split]
      have fine : ∀ x ∈ xs ++ ys, x.length < fuel := fun x listed => by
        have bound := shorter x listed
        omega
      rw [if_pos (several pieces pieces'), pieces_fold ih Finset.union_assoc
        (fun e f => outcome_or) (.both pieces pieces') fine, outcome]
      split
      · exact congrArg Except.ok (Finset.empty_union _)
      · rfl

end Recursion

section Exact

/-- A written selector is not a missing one. -/
theorem parseLabelSelector_printed (printed : Printed .alternatives e s) (left : Spaces u)
    (right : Spaces v) : parseLabelSelector unicode addresses peer_container ns
      is_namespace_selector (u ++ (s ++ v)) =
        outcome addresses peer_container ns is_namespace_selector e := by
  have given : ¬ (u ++ (s ++ v) = [] ∨ (u ++ (s ++ v)).all isSpace = true) := by
    obtain ⟨c, first, solid⟩ := (printed_shape printed).first
    have inside : c ∈ s := List.mem_of_mem_head? first
    intro missing
    rcases missing with empty | blank
    · simp [List.append_eq_nil_iff.mp (List.append_eq_nil_iff.mp empty).2] at inside
    · rw [List.all_eq_true.mp blank c (by simp [inside])] at solid
      cases solid
  rw [parseLabelSelector, syntaxErrorIf_pass given, ok_bind]
  exact recursive_printed printed left right (Nat.lt_succ_self _)

theorem scope_of_allPeers {a : Atom}
    (member : peer ∈ allPeers peer_container ns is_namespace_selector) :
    peer ∈ lookupScope peer_container ns is_namespace_selector a := by
  have group := allPeers_subset member
  rw [PeerContainer.getPeersGroup, Finset.mem_filter, PeerContainer.mem_group] at group
  obtain ⟨⟨listed, kind⟩, notGlobal⟩ := group
  have inside : is_namespace_selector = true → (peer_namespace peer).isSome = true := by
    rintro rfl
    exact BuiltPeers.namespaced peer kind (by simpa using notGlobal)
  have near : is_namespace_selector = false → PeerContainer.considered ns peer = true := by
    rintro rfl
    cases ns with
    | none => rfl
    | some ns => exact (Finset.mem_filter.mp member).2
  cases a with
  | all => exact member
  | has k =>
    apply Finset.mem_filter.mpr
    cases is_namespace_selector with
    | false => exact ⟨listed, near rfl⟩
    | true => exact ⟨listed, inside rfl⟩
  | compare | member =>
    apply Finset.mem_filter.mpr
    cases is_namespace_selector with
    | false => exact ⟨listed, rfl⟩
    | true => exact ⟨listed, inside rfl⟩

theorem listed_of_scope {a : Atom}
    (member : peer ∈ lookupScope peer_container ns is_namespace_selector a) :
    peer ∈ peer_container.peer_set := by
  cases a with
  | all =>
    have group := allPeers_subset member
    rw [PeerContainer.getPeersGroup, Finset.mem_filter, PeerContainer.mem_group] at group
    exact group.1.1
  | has | compare | member => exact (Finset.mem_filter.mp member).1

omit [DecidableEq A] in
/-- A point of one peer only is judged as the peer is. -/
theorem judged_alone (member : peer ∈ allPeers peer_container ns is_namespace_selector)
    (point : p ∈ points addresses peer)
    (alone : ∀ other ∈ peer_container.peer_set, p ∈ points addresses other → other = peer) :
    Judged addresses peer_container ns is_namespace_selector p e ↔ e.Sat is_namespace_selector peer := by
  induction e with
  | atom a =>
    constructor
    · intro ⟨other, scope, shared, sat⟩
      rwa [alone other (listed_of_scope scope) shared] at sat
    · intro sat
      exact ⟨peer, scope_of_allPeers member, point, sat⟩
  | not e ih => exact not_congr ih
  | and e f ih ih' => exact and_congr ih ih'
  | or e f ih ih' => exact or_congr ih ih'

variable (addresses peer_container ns is_namespace_selector)

/-- The points of the peers whose labels satisfy a selector. -/
def Selected (e : Selector) (p : O ⊕ A) : Prop :=
  ∃ peer ∈ allPeers peer_container ns is_namespace_selector,
    p ∈ points addresses peer ∧ e.Sat is_namespace_selector peer

/-- Judging each atomic expression over all network sets with an address, instead of judging the
selector over one network set at a time, makes no difference. -/
def Undisturbed (e : Selector) : Prop :=
  ∀ x, Sum.inr x ∈ ofPeers addresses (allPeers peer_container ns is_namespace_selector) →
    (Judged addresses peer_container ns is_namespace_selector (.inr x) e ↔
      Selected addresses peer_container ns is_namespace_selector e (.inr x))

variable {addresses peer_container ns is_namespace_selector}

omit [DecidableEq A] in
theorem selected_alone (member : peer ∈ allPeers peer_container ns is_namespace_selector)
    (point : p ∈ points addresses peer)
    (alone : ∀ other ∈ peer_container.peer_set, p ∈ points addresses other → other = peer) :
    Judged addresses peer_container ns is_namespace_selector p e ↔
      Selected addresses peer_container ns is_namespace_selector e p := by
  rw [judged_alone member point alone]
  constructor
  · intro sat
    exact ⟨peer, member, point, sat⟩
  · intro ⟨other, member', point', sat⟩
    have listed := listed_of_scope (a := .all) member'
    rwa [alone other listed point'] at sat

/-- Network sets that do not overlap do not disturb a selector. -/
theorem undisturbed_of_disjoint (disjoint : ∀ first ∈ peer_container.peer_set,
      ∀ second ∈ peer_container.peer_set, ∀ x, Sum.inr x ∈ points addresses first →
      Sum.inr x ∈ points addresses second → first = second) :
    Undisturbed addresses peer_container ns is_namespace_selector e := by
  intro x covered
  obtain ⟨peer, member, point⟩ := mem_ofPeers.mp covered
  have listed := listed_of_scope (a := .all) member
  exact selected_alone member point fun other listed' shared =>
    disjoint other listed' peer listed x shared point

omit [Fintype O] [DecidableEq O] [DecidableEq A] in
/-- A peer that is not a network set is its own point. -/
theorem inl_point {o : O} : (Sum.inl o : O ⊕ A) ∈ points addresses peer →
    peer = o := by
  unfold points
  split
  · simp
  · intro same
    rw [Finset.mem_singleton] at same
    exact (Sum.inl.inj same).symm

theorem mem_meaning_iff : (∀ p, p ∈ meaning addresses peer_container ns is_namespace_selector e ↔
      Selected addresses peer_container ns is_namespace_selector e p) ↔
    Undisturbed addresses peer_container ns is_namespace_selector e := by
  constructor
  · intro exact_ x covered
    rw [← exact_, mem_meaning, and_iff_right covered]
  · intro undisturbed p
    rw [mem_meaning]
    have within : Selected addresses peer_container ns is_namespace_selector e p →
        p ∈ ofPeers addresses (allPeers peer_container ns is_namespace_selector) :=
      fun ⟨peer, member, point, _⟩ => mem_ofPeers.mpr ⟨peer, member, point⟩
    have judged : p ∈ ofPeers addresses (allPeers peer_container ns is_namespace_selector) →
        (Judged addresses peer_container ns is_namespace_selector p e ↔
          Selected addresses peer_container ns is_namespace_selector e p) := by
      intro covered
      cases p with
      | inl o =>
        obtain ⟨peer, member, point⟩ := mem_ofPeers.mp covered
        exact selected_alone member point fun other _ shared =>
          (inl_point shared).trans (inl_point point).symm
      | inr x => exact undisturbed x covered
    tauto

/-- A written selector selects exactly the peers whose labels satisfy it if it has no empty values
and lists, and if no overlap of network sets disturbs it. -/
theorem parseLabelSelector_exact (printed : Printed .alternatives e s) (left : Spaces u)
    (right : Spaces v) :
    (∃ res, parseLabelSelector unicode addresses peer_container ns is_namespace_selector
        (u ++ (s ++ v)) = .ok res ∧
      ∀ p, p ∈ res ↔ Selected addresses peer_container ns is_namespace_selector e p) ↔
    e.Supported ∧ Undisturbed addresses peer_container ns is_namespace_selector e := by
  rw [parseLabelSelector_printed printed left right, outcome]
  constructor
  · intro ⟨res, parsed, selected⟩
    split at parsed
    · rename_i supported
      rw [← Except.ok.inj parsed] at selected
      exact ⟨supported, mem_meaning_iff.mp selected⟩
    · cases parsed
  · intro ⟨supported, undisturbed⟩
    rw [if_pos supported]
    exact ⟨_, rfl, mem_meaning_iff.mpr undisturbed⟩

end Exact

section OnePod

instance : BuiltPeers LonePod where
  namespaced _ _ _ := rfl
  dns_namespace _ dns := by cases dns

def appText (v : Str) : Str := "app".toList ++ ([' '] ++ ("!=".toList ++ ([' '] ++ quoted v)))

theorem printed_app (value : IsValue v) :
    Printed .alternatives (.atom (.compare "app".toList .ne v)) (appText v) := by
  have space : Spaces [' '] := List.forall_mem_singleton.mpr (by decide)
  have key : IsKey "app".toList := ⟨by decide, by
    unfold IsWordChar
    exact List.all_iff_forall_prop.mp (by decide)⟩
  exact .conjunction (.operand (.atom (.compare key value (.ne space space))))

/-- `app != 'db'` -/
theorem database_exact : (∃ res, parseLabelSelector (fun _ => false) (fun _ => (∅ : Finset Nat))
      lonePods none false ([] ++ (appText "db".toList ++ [])) = .ok res ∧
      ∀ p, p ∈ res ↔ Selected (fun _ => ∅) lonePods none false
        (.atom (.compare "app".toList .ne "db".toList)) p) ↔
    Selector.Supported (.atom (.compare "app".toList .ne "db".toList)) ∧
      Undisturbed (fun _ => (∅ : Finset Nat)) lonePods none false
        (.atom (.compare "app".toList .ne "db".toList)) :=
  parseLabelSelector_exact (printed_app (by
      unfold IsValue IsWordChar
      exact List.all_iff_forall_prop.mp (by decide)))
    (List.forall_mem_nil _) (List.forall_mem_nil _)

theorem empty_value_refused :
    Printed .alternatives (.atom (.compare "app".toList .ne [])) "app != ''".toList ∧
    ¬ ∃ res, parseLabelSelector (fun _ => false) (fun _ => (∅ : Finset Nat)) lonePods none false
        "app != ''".toList = .ok res ∧
      ∀ p, p ∈ res ↔ Selected (fun _ => ∅) lonePods none false
        (.atom (.compare "app".toList .ne [])) p := by
  have spelled : "app != ''".toList = appText [] := by decide
  have printed : Printed .alternatives _ (appText []) := printed_app (List.forall_mem_nil _)
  refine ⟨spelled ▸ printed, ?_⟩
  intro ⟨res, parsed, _⟩
  have refused : parseLabelSelector (fun _ => false) (fun _ => (∅ : Finset Nat)) lonePods none false
      ([] ++ (appText [] ++ [])) = _ :=
    parseLabelSelector_printed printed (List.forall_mem_nil _) (List.forall_mem_nil _)
  rw [List.nil_append, List.append_nil, ← spelled, parsed, outcome, if_neg (by decide)] at refused
  cases refused

end OnePod
end Nca.Parsers
