import Nca.Parsers.SelectorParsing

/-!
Texts that are not selectors. The parser reads the pieces of a text from left to right, up to the
first one that does not begin with an atomic expression, and it reads no piece further than the
atomic expression at its beginning.
-/

namespace Nca.Parsers
open CoreDS Lib Lib.Texts NetworkConfig TopologyPeers

section Grammar

/-- The grammar of selectors, for given atomic expressions. -/
inductive Sentence (atomic : Str → Prop) : Level → Str → Prop
  | atom {s : Str} (text : atomic s) : Sentence atomic .operand s
  | not {w s : Str} (gap : Spaces w) (inner : Sentence atomic .operand s) :
      Sentence atomic .operand ('!' :: (w ++ s))
  | brackets {u s v : Str} (left : Spaces u) (inner : Sentence atomic .alternatives s)
      (right : Spaces v) : Sentence atomic .operand ('(' :: (u ++ (s ++ v) ++ [')']))
  | operand {s : Str} (inner : Sentence atomic .operand s) : Sentence atomic .conjunction s
  | and {s u v t : Str} (first : Sentence atomic .conjunction s) (left : Spaces u) (right : Spaces v)
      (second : Sentence atomic .conjunction t) :
      Sentence atomic .conjunction (s ++ (u ++ ('&' :: '&' :: (v ++ t))))
  | conjunction {s : Str} (inner : Sentence atomic .conjunction s) : Sentence atomic .alternatives s
  | or {s u v t : Str} (first : Sentence atomic .alternatives s) (left : Spaces u) (right : Spaces v)
      (second : Sentence atomic .alternatives t) :
      Sentence atomic .alternatives (s ++ (u ++ ('|' :: '|' :: (v ++ t))))

/-- The atomic expressions; `global()` is one in selectors of namespaces. -/
def IsAtomic (is_namespace_selector : Bool) (s : Str) : Prop :=
  (∃ a, AtomText Spaces a s) ∨ is_namespace_selector = true ∧ s = "global()".toList

/-- A sentence at some level, with spaces around it. -/
def Padded (atomic : Str → Prop) (level : Level) (s : Str) : Prop :=
  ∃ u t v, s = u ++ (t ++ v) ∧ Spaces u ∧ Spaces v ∧ Sentence atomic level t

def IsSentence (is_namespace_selector : Bool) (s : Str) : Prop :=
  Padded (IsAtomic is_namespace_selector) .alternatives s

end Grammar

section Pieces

inductive Piece where
  | uneven (s : Str)
  | atomic (s : Str)
  deriving DecidableEq, Repr

/-- The pieces that a text is split to at its operators, in their order. -/
def pieces : Nat → Str → List Piece
  | 0, _ => []
  | fuel + 1, label_selector =>
    match stripSelector label_selector with
    | .error _ => [.uneven label_selector]
    | .ok label_selector =>
      let alternatives := splitSelector label_selector '|' '|'
      let conjuncts := splitSelector label_selector '&' '&'
      if alternatives.length ≠ 1 then alternatives.flatMap (pieces fuel)
      else if conjuncts.length ≠ 1 then conjuncts.flatMap (pieces fuel)
      else match label_selector with
      | '!' :: rest => pieces fuel rest
      | _ => [.atomic label_selector]

variable (unicode : Char → Bool) (is_namespace_selector : Bool)

/-- The piece begins with an atomic expression. -/
def Piece.begins : Piece → Bool
  | .uneven _ => false
  | .atomic s =>
    let expr := joinedWords (strip s)
    decide (is_namespace_selector = true ∧ expr = "global()".toList) ||
    decide (expr = "all()".toList) || ((has_re unicode).reMatch expr).isSome ||
    ((key_val_re unicode).reMatch expr).isSome || ((in_re unicode).reMatch expr).isSome ||
    ((str_re unicode).reMatch expr).isSome

/-- The piece is an atomic expression. -/
def Piece.Exact : Piece → Prop
  | .uneven _ => False
  | .atomic s => IsAtomic is_namespace_selector s

def Piece.error : Piece → ParseError
  | .uneven s => .SyntaxError ("number of brackets are not even: " ++ String.ofList (strip s))
  | .atomic [] => .IndexError
  | .atomic _ => .SyntaxError "Invalid expression"

def firstUnread (found : List Piece) : Option Piece :=
  found.find? fun piece => !piece.begins unicode is_namespace_selector

/-- The text is blank, or the first of its pieces that does not begin with an atomic expression is
not empty. -/
def Refused (s : Str) : Prop :=
  (∀ c ∈ s, isSpace c = true) ∨
  ∃ piece, firstUnread unicode is_namespace_selector (pieces (s.length + 1) s) = some piece ∧
    piece ≠ .atomic []

/-- The result of reading pieces from left to right. -/
def ReadTo {R : Type} (result : Except ParseError R) (found : List Piece) : Prop :=
  match firstUnread unicode is_namespace_selector found with
  | none => ∃ res, result = .ok res
  | some piece => result = .error piece.error

end Pieces

variable {unicode : Char → Bool} {is_namespace_selector : Bool} {s t u v cur : Str} {b : Char}
  {found others : List Piece} {fuel : Nat}

section Splitting

/-- A text between whose pieces the operator stands; no piece has an open bracket. -/
inductive Joined (b : Char) : Str → List Str → Prop
  | last {t : Str} (closed : bracketCount t = 0) : Joined b t [t]
  | more {x t : Str} {xs : List Str} (closed : bracketCount x = 0) (rest : Joined b t xs) :
      Joined b (x ++ (b :: b :: t)) (x :: xs)

/-- Brackets are closed where the operator stands. -/
def NoOperator (b : Char) (t : Str) : Prop := ∀ u v, t = u ++ (b :: b :: v) → bracketCount u ≠ 0

theorem operatorCount (plain : bracketCount [b] = 0) : bracketCount [b, b] = 0 := by
  rw [← List.singleton_append, bracketCount_append, plain]
  rfl

theorem walk_joined (plain : bracketCount [b] = 0) (closed : bracketCount (cur ++ t) = 0) :
    Joined b (cur ++ t) (walk b b t cur) := by
  fun_induction splitBy b b t generalizing cur with
  | case1 =>
    rw [List.append_nil] at closed ⊢
    rw [walk_nil, if_pos closed]
    exact .last closed
  | case2 c =>
    rw [walk_char (by simp), walk_nil, if_pos closed]
    exact .last closed
  | case3 c d s same ih =>
    obtain ⟨rfl, rfl⟩ := same
    rw [walk_operator]
    have whole : cur ++ (d :: d :: s) = (cur ++ [d, d]) ++ s := by simp
    have operator := operatorCount plain
    rw [whole] at closed ⊢
    split
    · rename_i ended
      rw [← whole]
      apply Joined.more ended
      have rest : bracketCount ([] ++ s) = 0 := by
        rw [bracketCount_append, bracketCount_append, ended, operator] at closed
        rw [List.nil_append]
        omega
      exact ih rest
    · exact ih closed
  | case4 c d s other ih =>
    have apart : ¬ (c = b ∧ (d :: s).head? = some b) :=
      fun both => other ⟨both.1, Option.some.inj both.2⟩
    have whole : cur ++ (c :: d :: s) = (cur ++ [c]) ++ (d :: s) := List.append_cons cur c (d :: s)
    rw [walk_char apart, whole]
    rw [whole] at closed
    exact ih closed

theorem splitSelector_joined (plain : bracketCount [b] = 0) (closed : bracketCount t = 0) :
    Joined b t (splitSelector t b b) := by
  rw [splitSelector_walk]
  have joined : Joined b ([] ++ t) (walk b b t []) := walk_joined plain closed
  exact joined

variable {xs : List Str} {x : Str}

/-- A text without operators outside brackets has one piece. -/
theorem joined_one (joined : Joined b t xs) (none : NoOperator b t) : xs = [t] := by
  cases joined with
  | last => rfl
  | more closed rest => exact (none _ _ rfl closed).elim

theorem joined_single (joined : Joined b t [x]) : x = t := by
  cases joined with
  | last => rfl
  | more _ rest => cases rest

theorem joined_ne_nil (joined : Joined b t xs) : xs ≠ [] := by
  cases joined <;> exact List.cons_ne_nil _ _

theorem joined_length (joined : Joined b t xs) (listed : x ∈ xs) :
    x.length ≤ t.length ∧ (xs.length ≠ 1 → x.length < t.length) := by
  induction joined with
  | last closed =>
    rw [List.mem_singleton.mp listed]
    exact ⟨Nat.le_refl _, fun several => (several rfl).elim⟩
  | more closed rest ih =>
    simp only [List.length_append, List.length_cons]
    rcases List.mem_cons.mp listed with rfl | later
    · omega
    · have bound := (ih later).1
      omega

theorem joined_closed (joined : Joined b t xs) (listed : x ∈ xs) : bracketCount x = 0 := by
  induction joined with
  | last closed => rwa [List.mem_singleton.mp listed]
  | more closed _ ih =>
    rcases List.mem_cons.mp listed with rfl | later
    · exact closed
    · exact ih later

/-- The pieces between operators have no operators that the text does not have. -/
theorem joined_noOperator {c : Char} (plain : bracketCount [b] = 0) (joined : Joined b t xs)
    (none : NoOperator c t) (listed : x ∈ xs) : NoOperator c x := by
  induction joined with
  | last => rwa [List.mem_singleton.mp listed]
  | @more y t ys closed rest ih =>
    rcases List.mem_cons.mp listed with rfl | later
    · intro u v whole
      apply none u (v ++ (b :: b :: t))
      rw [whole]
      simp
    · apply ih _ later
      intro u v whole ended
      apply none (y ++ ([b, b] ++ u)) v
      · rw [whole]
        simp
      · rw [bracketCount_append, bracketCount_append, operatorCount plain]
        omega

/-- A text that is split at no operator has none outside brackets. -/
theorem noOperator_of_walk (plain : bracketCount [b] = 0) (closed : bracketCount (cur ++ t) = 0)
    (single : (walk b b t cur).length = 1) (u v : Str) (whole : t = u ++ (b :: b :: v)) :
    bracketCount (cur ++ u) ≠ 0 := by
  fun_induction splitBy b b t generalizing cur u with
  | case1 => simp at whole
  | case2 c =>
    have lengths := congrArg List.length whole
    simp only [List.length_append, List.length_cons, List.length_nil] at lengths
    omega
  | case3 c d s same ih =>
    obtain ⟨rfl, rfl⟩ := same
    have move : cur ++ (d :: d :: s) = (cur ++ [d, d]) ++ s := by simp
    rw [move] at closed
    rw [walk_operator] at single
    split at single
    · rename_i ended
      have rest : bracketCount ([] ++ s) = 0 := by
        rw [bracketCount_append, bracketCount_append, ended, operatorCount plain] at closed
        rw [List.nil_append]
        omega
      have some : walk d d s [] ≠ [] := joined_ne_nil (walk_joined plain rest)
      rw [List.length_cons, Nat.succ_inj, List.length_eq_zero_iff] at single
      exact (some single).elim
    · rename_i opened
      cases u with
      | nil => rwa [List.append_nil]
      | cons e u =>
        cases u with
        | nil =>
          rw [(List.cons.inj whole).1] at plain
          rwa [bracketCount_append, plain, Int.add_zero]
        | cons f u =>
          rw [List.cons_append, List.cons_append, List.cons.injEq, List.cons.injEq] at whole
          obtain ⟨rfl, rfl, whole⟩ := whole
          have later := ih closed single u whole
          rwa [List.append_assoc] at later
  | case4 c d s other ih =>
    have apart : ¬ (c = b ∧ (d :: s).head? = some b) :=
      fun both => other ⟨both.1, Option.some.inj both.2⟩
    rw [walk_char apart] at single
    rw [List.append_cons] at closed
    cases u with
    | nil => exact (other ⟨(List.cons.inj whole).1, (List.cons.inj (List.cons.inj whole).2).1⟩).elim
    | cons e u =>
      rw [List.cons_append, List.cons.injEq] at whole
      obtain ⟨rfl, whole⟩ := whole
      have later := ih closed single u whole
      rwa [← List.append_cons] at later

end Splitting

section Brackets

variable {atomic : Str → Prop} {level : Level}

theorem bracketCount_spaces (spaces : Spaces u) : bracketCount u = 0 := (plain_spaces spaces).balanced

theorem bracketCount_strip : bracketCount (strip s) = bracketCount s := by
  obtain ⟨u, v, whole, left, right⟩ := strip_split s
  conv => rhs; rw [whole]
  rw [bracketCount_append, bracketCount_append, bracketCount_spaces left, bracketCount_spaces right]
  omega

theorem padded_strip (padded : Padded atomic level (strip s)) : Padded atomic level s := by
  obtain ⟨u, v, whole, left, right⟩ := strip_split s
  obtain ⟨u', t, v', inner, left', right', sentence⟩ := padded
  refine ⟨u ++ u', t, v' ++ v, ?_, List.forall_mem_append.mpr ⟨left, left'⟩,
    List.forall_mem_append.mpr ⟨right', right⟩, sentence⟩
  rw [whole, inner]
  simp only [List.append_assoc]

theorem noOperator_strip (none : NoOperator b s) : NoOperator b (strip s) := by
  obtain ⟨u, v, whole, left, _⟩ := strip_split s
  intro x y inner ended
  apply none (u ++ x) (y ++ v)
  · rw [whole, inner]
    simp
  · rw [bracketCount_append, bracketCount_spaces left]
    omega

theorem brackets_around (opening : s.head? = some '(') (closing : s.getLast? = some ')') :
    s = '(' :: (s.tail.dropLast ++ [')']) := by
  cases s with
  | nil => cases opening
  | cons c s =>
    cases s with
    | nil =>
      rw [List.head?_cons, Option.some.injEq] at opening
      rw [List.getLast?_singleton, opening] at closing
      cases closing
    | cons d s =>
      rw [List.head?_cons, Option.some.injEq] at opening
      rw [List.getLast?_cons_cons] at closing
      rw [List.tail_cons, List.dropLast_append_getLast? _ closing, opening]

/-- Either nothing is removed, or brackets around a text that is shorter. -/
theorem stripBrackets_cases (fuel : Nat) (s : Str) :
    (stripBrackets fuel s).length ≤ s.length ∧ bracketCount (stripBrackets fuel s) = bracketCount s ∧
    (stripBrackets fuel s = s ∨ ∀ atomic, Padded atomic .alternatives (stripBrackets fuel s) →
      Sentence atomic .operand s) := by
  induction fuel generalizing s with
  | zero => exact ⟨Nat.le_refl _, rfl, Or.inl rfl⟩
  | succ fuel ih =>
    rw [stripBrackets]
    split
    · rename_i around
      have whole := brackets_around around.1 around.2.1
      generalize s.tail.dropLast = inner at whole
      obtain ⟨short, count, shape⟩ := ih (strip inner)
      obtain ⟨u, v, spaced, left, right⟩ := strip_split inner
      have lengths := congrArg List.length spaced
      rw [List.length_append, List.length_append] at lengths
      have total := congrArg List.length whole
      rw [List.length_cons, List.length_append, List.length_singleton] at total
      refine ⟨by omega, ?_, Or.inr ?_⟩
      · rw [count, bracketCount_strip, whole, bracketCount_brackets]
      · intro atomic padded
        have inside : Padded atomic .alternatives inner := by
          apply padded_strip
          rcases shape with same | removed
          · rwa [same] at padded
          · exact ⟨[], strip inner, [], by simp, List.forall_mem_nil _, List.forall_mem_nil _,
              .conjunction (.operand (removed atomic padded))⟩
        obtain ⟨u, t, v, parts, left, right, sentence⟩ := inside
        rw [whole, parts]
        exact .brackets left sentence right
    · exact ⟨Nat.le_refl _, rfl, Or.inl rfl⟩

/-- What reading a text as a sentence leaves to show, by the operators outside its brackets. -/
structure Reads (atomic : Str → Prop) (s : Str) : Prop where
  alternatives : Padded atomic .alternatives s
  conjunction : NoOperator '|' s → Padded atomic .conjunction s
  operand : NoOperator '|' s → NoOperator '&' s → Padded atomic .operand s

theorem padded_conjunction (padded : Padded atomic .operand s) : Padded atomic .conjunction s := by
  obtain ⟨u, t, v, whole, left, right, sentence⟩ := padded
  exact ⟨u, t, v, whole, left, right, .operand sentence⟩

theorem padded_alternatives (padded : Padded atomic .conjunction s) :
    Padded atomic .alternatives s := by
  obtain ⟨u, t, v, whole, left, right, sentence⟩ := padded
  exact ⟨u, t, v, whole, left, right, .conjunction sentence⟩

theorem reads_operand (padded : Padded atomic .operand s) : Reads atomic s where
  alternatives := padded_alternatives (padded_conjunction padded)
  conjunction _ := padded_conjunction padded
  operand _ _ := padded

theorem stripSelector_ok (stripped : stripSelector s = .ok t) :
    t.length ≤ s.length ∧ bracketCount t = 0 ∧ (∀ atomic, Reads atomic t → Reads atomic s) := by
  obtain ⟨_, even, same⟩ := bind_ok.mp stripped
  have balanced := not_not.mp (syntaxErrorIf_ok.mp even)
  obtain ⟨short, count, shape⟩ := stripBrackets_cases (strip s).length (strip s)
  obtain ⟨u, v, whole, _, _⟩ := strip_split s
  have lengths := congrArg List.length whole
  rw [List.length_append, List.length_append] at lengths
  rw [← Except.ok.inj same]
  refine ⟨by omega, ?_, ?_⟩
  · rw [count, bracketCount, balanced, Int.sub_self]
  · intro atomic reads
    rcases shape with same | removed
    · rw [same] at reads
      refine ⟨padded_strip reads.alternatives, fun none => ?_, fun none none' => ?_⟩
      · exact padded_strip (reads.conjunction (noOperator_strip none))
      · exact padded_strip (reads.operand (noOperator_strip none) (noOperator_strip none'))
    · apply reads_operand
      apply padded_strip
      exact ⟨[], strip s, [], by simp, List.forall_mem_nil _, List.forall_mem_nil _,
        removed atomic reads.alternatives⟩

theorem padded_joined {xs : List Str} (joined : Joined b t xs)
    (each : ∀ x ∈ xs, Padded atomic level x)
    (join : ∀ {s u v t}, Sentence atomic level s → Spaces u → Spaces v → Sentence atomic level t →
      Sentence atomic level (s ++ (u ++ (b :: b :: (v ++ t))))) : Padded atomic level t := by
  induction joined with
  | last => exact each _ (List.mem_singleton_self _)
  | more _ _ ih =>
    obtain ⟨first, others⟩ := List.forall_mem_cons.mp each
    obtain ⟨u, s, v, rfl, left, right, sentence⟩ := first
    obtain ⟨u', t, v', rfl, left', right', sentence'⟩ := ih others
    exact ⟨u, s ++ (v ++ (b :: b :: (u' ++ t))), v', by simp, left, right',
      join sentence right left' sentence'⟩

end Brackets

section Exact

theorem noOperator_of_single (plain : bracketCount [b] = 0) (closed : bracketCount t = 0)
    (single : (splitSelector t b b).length = 1) : NoOperator b t := by
  rw [splitSelector_walk] at single
  intro u v whole
  have balanced : bracketCount ([] ++ t) = 0 := closed
  exact noOperator_of_walk plain balanced single u v whole

theorem reads_atomic {atomic : Str → Prop} (text : atomic s) : Reads atomic s :=
  reads_operand ⟨[], s, [], by simp, List.forall_mem_nil _, List.forall_mem_nil _, .atom text⟩

/-- A text whose pieces all are atomic expressions is a sentence. -/
theorem reads_of_pieces (short : s.length < fuel)
    (exact_ : ∀ piece ∈ pieces fuel s, piece.Exact is_namespace_selector) :
    Reads (IsAtomic is_namespace_selector) s := by
  induction fuel generalizing s with
  | zero => omega
  | succ fuel ih =>
    rw [pieces] at exact_
    cases stripped : stripSelector s with
    | error err =>
      rw [stripped] at exact_
      exact (exact_ _ (List.mem_singleton_self _)).elim
    | ok t =>
      rw [stripped] at exact_
      obtain ⟨less, closed, lift⟩ := stripSelector_ok stripped
      apply lift
      have bars := splitSelector_joined (b := '|') rfl closed
      have ands := splitSelector_joined (b := '&') rfl closed
      dsimp only at exact_
      split at exact_
      · rename_i several
        have each : ∀ x ∈ splitSelector t '|' '|', Padded (IsAtomic is_namespace_selector) .alternatives x := by
          intro x listed
          have shorter := (joined_length bars listed).2 several
          apply Reads.alternatives
          exact ih (by omega) fun piece found => exact_ piece (List.mem_flatMap.mpr ⟨x, listed, found⟩)
        have noBars : ¬ NoOperator '|' t := fun none => several (by rw [joined_one bars none]; rfl)
        refine ⟨padded_joined bars each .or, fun none => (noBars none).elim, fun none => (noBars none).elim⟩
      · rename_i single
        have none : NoOperator '|' t := noOperator_of_single rfl closed (not_not.mp single)
        split at exact_
        · rename_i several
          have each : ∀ x ∈ splitSelector t '&' '&', Padded (IsAtomic is_namespace_selector) .conjunction x := by
            intro x listed
            have shorter := (joined_length ands listed).2 several
            have reads := ih (by omega) fun piece found =>
              exact_ piece (List.mem_flatMap.mpr ⟨x, listed, found⟩)
            exact reads.conjunction (joined_noOperator rfl ands none listed)
          have padded := padded_joined ands each .and
          have noAnds : ¬ NoOperator '&' t := fun none => several (by rw [joined_one ands none]; rfl)
          exact ⟨padded_alternatives padded, fun _ => padded, fun _ none => (noAnds none).elim⟩
        · rename_i single'
          have none' : NoOperator '&' t := noOperator_of_single rfl closed (not_not.mp single')
          split at exact_
          · rename_i rest
            have behind : ∀ c, NoOperator c ('!' :: rest) → NoOperator c rest := by
              intro c none u v whole ended
              apply none ('!' :: u) v
              · rw [whole, List.cons_append]
              · exact (bracketCount_append (s := ['!'])).trans (by rw [ended]; rfl)
            rw [List.length_cons] at less
            have reads := ih (by omega) exact_
            obtain ⟨u, x, v, parts, left, right, sentence⟩ :=
              reads.operand (behind '|' none) (behind '&' none')
            apply reads_operand
            exact ⟨[], '!' :: (u ++ x), v, by simp [parts], List.forall_mem_nil _, right,
              .not left sentence⟩
          · exact reads_atomic (exact_ _ (List.mem_singleton_self _))

end Exact

section Reading

variable {O A R : Type} [Fintype O] [DecidableEq O] [DecidableEq A] [TopologyPeers O]
  {addresses : O → Finset A} {peer_container : PeerContainer O} {ns : Option K8sNamespace}
  {result : Except ParseError R}

theorem firstUnread_append : firstUnread unicode is_namespace_selector (found ++ others) =
    (firstUnread unicode is_namespace_selector found).or
      (firstUnread unicode is_namespace_selector others) := List.find?_append

theorem readTo_map {S : Type} {f : R → S} (read : ReadTo unicode is_namespace_selector result found) :
    ReadTo unicode is_namespace_selector (f <$> result) found := by
  unfold ReadTo at read ⊢
  split at read
  · obtain ⟨res, rfl⟩ := read
    exact ⟨f res, rfl⟩
  · rw [read]
    rfl

theorem readTo_bind {S : Type} {next : R → Except ParseError S}
    (read : ReadTo unicode is_namespace_selector result found)
    (later : ∀ res, ReadTo unicode is_namespace_selector (next res) others) :
    ReadTo unicode is_namespace_selector (result >>= next) (found ++ others) := by
  unfold ReadTo at read ⊢
  rw [firstUnread_append]
  split at read
  · rename_i none
    obtain ⟨res, rfl⟩ := read
    rw [none, Option.none_or]
    exact later res
  · rename_i piece some
    rw [some, read]
    rfl

theorem readTo_foldlM {xs : List Str} {f : R → Str → Except ParseError R} {g : Str → List Piece}
    (each : ∀ x ∈ xs, ∀ res, ReadTo unicode is_namespace_selector (f res x) (g x)) (init : R) :
    ReadTo unicode is_namespace_selector (xs.foldlM f init) (xs.flatMap g) := by
  induction xs generalizing init with
  | nil => exact ⟨init, rfl⟩
  | cons x xs ih =>
    obtain ⟨first, later⟩ := List.forall_mem_cons.mp each
    rw [List.foldlM_cons, List.flatMap_cons]
    exact readTo_bind (first init) (ih later)

theorem readTo_one {piece : Piece}
    (read : piece.begins unicode is_namespace_selector = true → ∃ res, result = .ok res)
    (unread : piece.begins unicode is_namespace_selector = false → result = .error piece.error) :
    ReadTo unicode is_namespace_selector result [piece] := by
  unfold ReadTo firstUnread
  rw [List.find?_singleton]
  cases begins : piece.begins unicode is_namespace_selector with
  | true => exact read begins
  | false => exact unread begins

theorem empty_unread : (Piece.atomic []).begins unicode is_namespace_selector = false := by
  have empty : joinedWords (strip []) = [] := rfl
  have noKey : (has_re unicode).reMatch [] = none := rfl
  have noValue : (key_val_re unicode).reMatch [] = none := rfl
  have noList : (in_re unicode).reMatch [] = none := rfl
  have noText : (str_re unicode).reMatch [] = none := rfl
  rw [Piece.begins]
  simp [empty, noKey, noValue, noList, noText]

theorem readTo_expr (some : s ≠ []) : ReadTo unicode is_namespace_selector
    (parseSelectorExpr unicode addresses peer_container ns is_namespace_selector s) [.atomic s] := by
  have refused : (Piece.atomic s).error = .SyntaxError "Invalid expression" := by
    cases s with
    | nil => exact (some rfl).elim
    | cons => rfl
  apply readTo_one
  · intro begins
    unfold parseSelectorExpr
    rw [Piece.begins] at begins
    dsimp only at begins ⊢
    split
    · exact ⟨_, rfl⟩
    · split
      · exact ⟨_, rfl⟩
      · split
        · exact ⟨_, rfl⟩
        · split
          · exact ⟨_, rfl⟩
          · split
            · exact ⟨_, rfl⟩
            · split
              · exact ⟨_, rfl⟩
              · rename_i notGlobal notAll _ noKey _ noValue _ noList _ noText
                simp only [notGlobal, notAll, noKey, noValue, noList, noText, decide_false,
                  Option.isSome_none, Bool.or_false] at begins
                cases begins
  · intro stops
    rw [Piece.begins] at stops
    simp only [Bool.or_eq_false_iff, decide_eq_false_iff_not, Option.isSome_eq_false_iff,
      Option.isNone_iff_eq_none] at stops
    obtain ⟨⟨⟨⟨⟨notGlobal, notAll⟩, noKey⟩, noValue⟩, noList⟩, noText⟩ := stops
    unfold parseSelectorExpr
    simp only [notGlobal, notAll, if_false, noKey, noValue, noList, noText, refused]
    rfl

theorem stripSelector_error {err : ParseError} (refused : stripSelector s = .error err) :
    err = (Piece.uneven s).error := by
  rw [stripSelector] at refused
  unfold syntaxErrorIf at refused
  split at refused
  · exact (Except.error.inj refused).symm
  · cases refused

/-- The parser reads the pieces up to the first one that it cannot read. -/
theorem recursive_read (short : s.length < fuel) : ReadTo unicode is_namespace_selector
    (recursiveParseLabelSelector unicode addresses peer_container ns is_namespace_selector fuel s)
    (pieces fuel s) := by
  induction fuel generalizing s with
  | zero => omega
  | succ fuel ih =>
    rw [pieces, recursiveParseLabelSelector]
    cases stripped : stripSelector s with
    | error err =>
      apply readTo_one
      · intro begins
        cases begins
      · intro _
        rw [stripSelector_error stripped]
        rfl
    | ok t =>
      obtain ⟨less, closed, _⟩ := stripSelector_ok stripped
      have bars := splitSelector_joined (b := '|') rfl closed
      have ands := splitSelector_joined (b := '&') rfl closed
      rw [ok_bind]
      dsimp only
      split
      · rename_i several
        apply readTo_foldlM
        intro x listed res
        have shorter := (joined_length bars listed).2 several
        exact readTo_map (ih (by omega))
      · split
        · rename_i several
          apply readTo_foldlM
          intro x listed res
          have shorter := (joined_length ands listed).2 several
          exact readTo_map (ih (by omega))
        · rename_i single
          obtain ⟨x, same⟩ := List.length_eq_one_iff.mp (not_not.mp single)
          rw [same] at ands
          rw [same, List.headD_cons, joined_single ands]
          split
          · apply readTo_one
            · intro begins
              rw [empty_unread] at begins
              cases begins
            · exact fun _ => rfl
          · rw [List.length_cons] at less
            exact readTo_map (ih (by omega))
          · rename_i nonEmpty unsigned
            split
            · exact (unsigned _ rfl).elim
            · exact readTo_expr nonEmpty

/-- The result for any text: a set of peers, a syntax error or, for an empty piece, another error. -/
theorem parseLabelSelector_read (given : ¬ ∀ c ∈ s, isSpace c = true) :
    ReadTo unicode is_namespace_selector
      (parseLabelSelector unicode addresses peer_container ns is_namespace_selector s)
      (pieces (s.length + 1) s) := by
  have some : ¬ (s = [] ∨ s.all isSpace = true) := by
    intro missing
    rcases missing with rfl | blank
    · exact given (List.forall_mem_nil _)
    · exact given (List.all_eq_true.mp blank)
  rw [parseLabelSelector, syntaxErrorIf_pass some, ok_bind]
  exact recursive_read (Nat.lt_succ_self _)

theorem error_syntax {piece : Piece} : (∃ m, piece.error = .SyntaxError m) ↔ piece ≠ .atomic [] := by
  constructor
  · rintro ⟨m, same⟩ rfl
    cases same
  · intro some
    match piece with
    | .uneven s => exact ⟨_, rfl⟩
    | .atomic [] => exact (some rfl).elim
    | .atomic (c :: s) => exact ⟨_, rfl⟩

theorem parseLabelSelector_refuses : (∃ m, parseLabelSelector unicode addresses peer_container ns
      is_namespace_selector s = .error (.SyntaxError m)) ↔ Refused unicode is_namespace_selector s := by
  by_cases blank : ∀ c ∈ s, isSpace c = true
  · constructor
    · exact fun _ => Or.inl blank
    · intro _
      rw [parseLabelSelector, syntaxErrorIf, if_pos (Or.inr (List.all_eq_true.mpr blank))]
      exact ⟨_, rfl⟩
  · have read : ReadTo unicode is_namespace_selector (parseLabelSelector unicode addresses
        peer_container ns is_namespace_selector s) _ := parseLabelSelector_read blank
    rw [Refused, or_iff_right blank]
    unfold ReadTo at read
    cases unread : firstUnread unicode is_namespace_selector (pieces (s.length + 1) s) with
    | none =>
      rw [unread] at read
      obtain ⟨res, same⟩ := read
      simp [same]
    | some piece =>
      rw [unread] at read
      simp only [read, Except.error.injEq, error_syntax, Option.some.injEq, exists_eq_left']

/-- What the parser accepts is a sentence, unless something stands behind an atomic expression. -/
theorem accepted_sentence {res : PeerSet (O ⊕ A)}
    (accepted : parseLabelSelector unicode addresses peer_container ns is_namespace_selector s = .ok res) :
    IsSentence is_namespace_selector s ∨ ∃ piece ∈ pieces (s.length + 1) s,
      piece.begins unicode is_namespace_selector = true ∧ ¬ piece.Exact is_namespace_selector := by
  by_cases each : ∀ piece ∈ pieces (s.length + 1) s, piece.Exact is_namespace_selector
  · exact Or.inl (reads_of_pieces (Nat.lt_succ_self _) each).alternatives
  · right
    have given : ¬ ∀ c ∈ s, isSpace c = true := by
      intro blank
      rw [parseLabelSelector, syntaxErrorIf, if_pos (Or.inr (List.all_eq_true.mpr blank))] at accepted
      cases accepted
    have read : ReadTo unicode is_namespace_selector (parseLabelSelector unicode addresses
        peer_container ns is_namespace_selector s) _ := parseLabelSelector_read given
    unfold ReadTo at read
    split at read
    · rename_i unread
      push Not at each
      obtain ⟨piece, found, more⟩ := each
      have begun := List.find?_eq_none.mp unread piece found
      exact ⟨piece, found, by simpa using begun, more⟩
    · rw [accepted] at read
      cases read

/-- Texts that are no selectors are refused with a syntax error exactly if they are blank or if the
first piece that does not begin with an atomic expression is not empty. -/
theorem refuses_iff : (¬ IsSentence is_namespace_selector s →
      ∃ m, parseLabelSelector unicode addresses peer_container ns is_namespace_selector s =
        .error (.SyntaxError m)) ↔
    IsSentence is_namespace_selector s ∨ Refused unicode is_namespace_selector s := by
  rw [parseLabelSelector_refuses]
  exact or_iff_not_imp_left.symm

end Reading

section Junk

theorem atomic_last (text : IsAtomic is_namespace_selector s) :
    ∃ c ∈ s.getLast?, c = ')' ∨ c = '\'' ∨ c = '}' := by
  rcases text with ⟨a, text⟩ | ⟨_, rfl⟩
  · cases text with
    | all => exact ⟨')', rfl, Or.inl rfl⟩
    | has => exact ⟨')', last_append (last_append rfl), Or.inl rfl⟩
    | compare _ _ text =>
      exact ⟨'\'', last_append (compare_last text quoted_last), Or.inr (Or.inl rfl)⟩
    | member _ values text =>
      exact ⟨'}', last_append (member_last text (list_last values)), Or.inr (Or.inr rfl)⟩
  · exact ⟨')', rfl, Or.inl rfl⟩

/-- A sentence ends with a bracket or a quotation mark. -/
theorem sentence_last {level : Level} (sentence : Sentence (IsAtomic is_namespace_selector) level s) :
    ∃ c ∈ s.getLast?, c = ')' ∨ c = '\'' ∨ c = '}' := by
  induction sentence with
  | atom text => exact atomic_last text
  | not gap _ ih =>
    obtain ⟨c, found, kind⟩ := ih
    rw [← List.singleton_append]
    exact ⟨c, last_append (last_append found), kind⟩
  | brackets left inner right =>
    refine ⟨')', ?_, Or.inl rfl⟩
    rw [← List.cons_append]
    exact last_append rfl
  | operand _ ih | conjunction _ ih => exact ih
  | and _ _ _ _ _ ih =>
    obtain ⟨c, found, kind⟩ := ih
    exact ⟨c, last_append (last_append (last_append (s := ['&', '&']) (last_append found))), kind⟩
  | or _ _ _ _ _ ih =>
    obtain ⟨c, found, kind⟩ := ih
    exact ⟨c, last_append (last_append (last_append (s := ['|', '|']) (last_append found))), kind⟩

theorem isSentence_last {c : Char} (sentence : IsSentence is_namespace_selector s)
    (last : s.getLast? = some c) : isSpace c = true ∨ c = ')' ∨ c = '\'' ∨ c = '}' := by
  obtain ⟨u, t, v, rfl, _, spaces, sentence⟩ := sentence
  obtain ⟨d, found, kind⟩ := sentence_last sentence
  cases ended : v.getLast? with
  | none =>
    rw [List.getLast?_eq_none_iff.mp ended, List.append_nil, last_append found] at last
    exact Or.inr (Option.some.inj last ▸ kind)
  | some e =>
    rw [last_append (last_append ended)] at last
    exact Or.inl (Option.some.inj last ▸ spaces e (List.mem_of_getLast? ended))

theorem junk_accepted : ¬ (¬ IsSentence false "has(app) junk".toList →
    ∃ m, parseLabelSelector (fun _ => false) (fun _ => (∅ : Finset Nat)) lonePods none false
      "has(app) junk".toList = .error (.SyntaxError m)) := by
  intro refuses
  have accepted : parseLabelSelector (fun _ => false) (fun _ => (∅ : Finset Nat)) lonePods none false
      "has(app) junk".toList = .ok _ := rfl
  obtain ⟨m, refused⟩ := refuses fun sentence =>
    absurd (isSentence_last sentence (c := 'k') rfl) (by decide)
  rw [accepted] at refused
  cases refused

end Junk
end Nca.Parsers
