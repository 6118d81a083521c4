import Nca.Lib.Dict

/-!
Patterns that are matched by backtracking. A matcher lists the ways in which a pattern matches the
front of a text, the preferred one first, each with the groups it captures and the rest of the text.
-/

namespace Nca.Lib

inductive Pattern where
  | empty
  | chars (set : Char → Bool)
  | seq (r s : Pattern)
  | alt (r s : Pattern)
  | star (r : Pattern)
  | group (n : Nat) (r : Pattern)

namespace Pattern

/-- The texts of groups by their numbers. -/
abbrev Groups := List (Nat × List Char)

section Matcher

/-- One match and then another behind it. -/
def followed (one : List (Groups × List Char)) (next : List Char → List (Groups × List Char)) :
    List (Groups × List Char) :=
  one.flatMap fun m => (next m.2).map fun n => (m.1 ++ n.1, n.2)

/-- Repetitions, of which each takes some text; more of them are preferred. -/
def repeated (one : List Char → List (Groups × List Char)) :
    Nat → List Char → List (Groups × List Char)
  | 0, w => [([], w)]
  | fuel + 1, w =>
    followed ((one w).filter fun m => m.2.length < w.length) (repeated one fuel) ++ [([], w)]

def run : Pattern → List Char → List (Groups × List Char)
  | empty, w => [([], w)]
  | chars _, [] => []
  | chars set, c :: w => if set c then [([], w)] else []
  | seq r s, w => followed (r.run w) s.run
  | alt r s, w => r.run w ++ s.run w
  | star r, w => repeated r.run w.length w
  | group n r, w => (r.run w).map fun m => ((n, w.take (w.length - m.2.length)) :: m.1, m.2)

/-- `re.match`: the groups of the preferred match at the front of the text. -/
def reMatch (r : Pattern) (w : List Char) : Option Groups := (r.run w).head?.map Prod.fst

def fullmatch (r : Pattern) (w : List Char) : Bool := (r.run w).any fun m => m.2.isEmpty

/-- `re.search`: the groups of the first match in the text. -/
def search (r : Pattern) : List Char → Option Groups
  | [] => reMatch r []
  | c :: w =>
    match reMatch r (c :: w) with
    | some groups => some groups
    | none => search r w

/-- The groups of all matches of a pattern that takes some text; the fuel is at least the length of
the text. -/
def findall (r : Pattern) : Nat → List Char → List Groups
  | 0, _ => []
  | _ + 1, [] => []
  | fuel + 1, c :: w =>
    match (r.run (c :: w)).head? with
    | some m => m.1 :: findall r fuel m.2
    | none => findall r fuel w

end Matcher

section Forms

def plus (r : Pattern) : Pattern := seq r (star r)

def opt (r : Pattern) : Pattern := alt r empty

/-- The characters of a text, one after the other. -/
def text : List Char → Pattern
  | [] => empty
  | c :: rest => seq (chars (· == c)) (text rest)

end Forms

/-- The pattern matches all of a text and captures the groups. -/
inductive Spells : Pattern → List Char → Groups → Prop
  | empty : Spells empty [] []
  | chars {set : Char → Bool} {c : Char} (member : set c = true) : Spells (chars set) [c] []
  | seq {r s : Pattern} {u v : List Char} {g h : Groups} (first : Spells r u g)
      (second : Spells s v h) : Spells (seq r s) (u ++ v) (g ++ h)
  | left {r s : Pattern} {u : List Char} {g : Groups} (one : Spells r u g) : Spells (alt r s) u g
  | right {r s : Pattern} {u : List Char} {g : Groups} (one : Spells s u g) : Spells (alt r s) u g
  | stop {r : Pattern} : Spells (star r) [] []
  | more {r : Pattern} {u v : List Char} {g h : Groups} (some : u ≠ []) (first : Spells r u g)
      (others : Spells (star r) v h) : Spells (star r) (u ++ v) (g ++ h)
  | group {n : Nat} {r : Pattern} {u : List Char} {g : Groups} (inner : Spells r u g) :
      Spells (group n r) u ((n, u) :: g)

variable {r s : Pattern} {u v w : List Char} {g h : Groups} {set : Char → Bool}

section Inversion

theorem spells_empty : Spells empty u g ↔ u = [] ∧ g = [] := by
  constructor
  · intro spells
    cases spells
    exact ⟨rfl, rfl⟩
  · rintro ⟨rfl, rfl⟩
    exact .empty

theorem spells_chars : Spells (chars set) u g ↔ ∃ c, set c = true ∧ u = [c] ∧ g = [] := by
  constructor
  · intro spells
    cases spells with
    | chars member => exact ⟨_, member, rfl, rfl⟩
  · rintro ⟨c, member, rfl, rfl⟩
    exact .chars member

theorem spells_seq : Spells (seq r s) u g ↔
    ∃ v w g₁ g₂, u = v ++ w ∧ g = g₁ ++ g₂ ∧ Spells r v g₁ ∧ Spells s w g₂ := by
  constructor
  · intro spells
    cases spells with
    | seq first second => exact ⟨_, _, _, _, rfl, rfl, first, second⟩
  · rintro ⟨v, w, g₁, g₂, rfl, rfl, first, second⟩
    exact .seq first second

theorem spells_alt : Spells (alt r s) u g ↔ Spells r u g ∨ Spells s u g := by
  constructor
  · intro spells
    cases spells with
    | left one => exact Or.inl one
    | right one => exact Or.inr one
  · rintro (one | one)
    · exact .left one
    · exact .right one

theorem spells_group {n : Nat} : Spells (group n r) u g ↔ ∃ h, g = (n, u) :: h ∧ Spells r u h := by
  constructor
  · intro spells
    cases spells with
    | group inner => exact ⟨_, rfl, inner⟩
  · rintro ⟨h, rfl, inner⟩
    exact .group inner

theorem spells_opt : Spells (opt r) u g ↔ Spells r u g ∨ u = [] ∧ g = [] := by
  rw [opt, spells_alt, spells_empty]

theorem spells_text {t : List Char} : Spells (text t) u g ↔ u = t ∧ g = [] := by
  induction t generalizing u g with
  | nil => exact spells_empty
  | cons c rest ih =>
    rw [text, spells_seq]
    constructor
    · rintro ⟨v, w, g₁, g₂, rfl, rfl, first, second⟩
      obtain ⟨d, same, rfl, rfl⟩ := spells_chars.mp first
      obtain ⟨rfl, rfl⟩ := ih.mp second
      exact ⟨by rw [eq_of_beq same]; rfl, rfl⟩
    · rintro ⟨rfl, rfl⟩
      exact ⟨[c], rest, [], [], rfl, rfl, .chars (beq_self_eq_true c), ih.mpr ⟨rfl, rfl⟩⟩

theorem spells_star_chars : Spells (star (chars set)) u g ↔ (∀ c ∈ u, set c = true) ∧ g = [] := by
  constructor
  · intro spells
    generalize shape : star (chars set) = r at spells
    induction spells with
    | stop => exact ⟨List.forall_mem_nil _, rfl⟩
    | more _ first _ _ ih =>
      obtain rfl := star.inj shape
      obtain ⟨c, member, rfl, rfl⟩ := spells_chars.mp first
      obtain ⟨others, rfl⟩ := ih rfl
      exact ⟨List.forall_mem_cons.mpr ⟨member, others⟩, rfl⟩
    | _ => cases shape
  · rintro ⟨members, rfl⟩
    induction u with
    | nil => exact .stop
    | cons c rest ih =>
      obtain ⟨member, others⟩ := List.forall_mem_cons.mp members
      exact .more (List.cons_ne_nil c []) (.chars member) (ih others)

theorem spells_plus_chars : Spells (plus (chars set)) u g ↔
    u ≠ [] ∧ (∀ c ∈ u, set c = true) ∧ g = [] := by
  rw [plus, spells_seq]
  constructor
  · rintro ⟨v, w, g₁, g₂, rfl, rfl, first, second⟩
    obtain ⟨c, member, rfl, rfl⟩ := spells_chars.mp first
    obtain ⟨others, rfl⟩ := spells_star_chars.mp second
    exact ⟨List.cons_ne_nil c w, List.forall_mem_cons.mpr ⟨member, others⟩, rfl⟩
  · rintro ⟨some, members, rfl⟩
    obtain ⟨c, rest, rfl⟩ := List.exists_cons_of_ne_nil some
    obtain ⟨member, others⟩ := List.forall_mem_cons.mp members
    exact ⟨[c], rest, [], [], rfl, rfl, .chars member, spells_star_chars.mpr ⟨others, rfl⟩⟩

end Inversion

section Correct

/-- The matcher finds the ways of spelling the front of a text, and no others. -/
def Correct (r : Pattern) (found : List Char → List (Groups × List Char)) : Prop :=
  ∀ w g v, (g, v) ∈ found w ↔ ∃ u, w = u ++ v ∧ Spells r u g

theorem mem_followed {one : List (Groups × List Char)}
    {next : List Char → List (Groups × List Char)} : (g, v) ∈ followed one next ↔
    ∃ g₁ g₂ x, g = g₁ ++ g₂ ∧ (g₁, x) ∈ one ∧ (g₂, v) ∈ next x := by
  simp only [followed, List.mem_flatMap, List.mem_map, Prod.exists, Prod.mk.injEq]
  constructor
  · rintro ⟨g₁, x, found, g₂, v, behind, rfl, rfl⟩
    exact ⟨g₁, g₂, x, rfl, found, behind⟩
  · rintro ⟨g₁, g₂, x, rfl, found, behind⟩
    exact ⟨g₁, x, found, g₂, v, behind, rfl, rfl⟩

theorem spells_star : Spells (star r) u g ↔ (u = [] ∧ g = []) ∨
    ∃ v w g₁ g₂, v ≠ [] ∧ u = v ++ w ∧ g = g₁ ++ g₂ ∧ Spells r v g₁ ∧ Spells (star r) w g₂ := by
  constructor
  · intro spells
    cases spells with
    | stop => exact Or.inl ⟨rfl, rfl⟩
    | more some first others => exact Or.inr ⟨_, _, _, _, some, rfl, rfl, first, others⟩
  · rintro (⟨rfl, rfl⟩ | ⟨v, w, g₁, g₂, some, rfl, rfl, first, others⟩)
    · exact .stop
    · exact .more some first others

theorem mem_repeated {one : List Char → List (Groups × List Char)} (correct : Correct r one)
    {fuel : Nat} (enough : w.length ≤ fuel) :
    (g, v) ∈ repeated one fuel w ↔ ∃ u, w = u ++ v ∧ Spells (star r) u g := by
  induction fuel generalizing w g with
  | zero =>
    obtain rfl : w = [] := List.length_eq_zero_iff.mp (by omega)
    rw [repeated, List.mem_singleton, Prod.mk.injEq]
    constructor
    · rintro ⟨rfl, rfl⟩
      exact ⟨[], rfl, .stop⟩
    · rintro ⟨u, whole, spells⟩
      obtain ⟨rfl, rfl⟩ := List.append_eq_nil_iff.mp whole.symm
      rcases spells_star.mp spells with ⟨_, rfl⟩ | ⟨_, _, _, _, some, whole, _⟩
      · exact ⟨rfl, rfl⟩
      · exact absurd (List.append_eq_nil_iff.mp whole.symm).1 some
  | succ fuel ih =>
    rw [repeated, List.mem_append, List.mem_singleton, Prod.mk.injEq, mem_followed]
    simp only [List.mem_filter, decide_eq_true_iff]
    constructor
    · rintro (⟨g₁, g₂, x, rfl, ⟨found, shorter⟩, behind⟩ | ⟨rfl, rfl⟩)
      · obtain ⟨u, rfl, first⟩ := (correct w g₁ x).mp found
        obtain ⟨y, rfl, others⟩ := (ih (by omega)).mp behind
        have some : u ≠ [] := by
          rintro rfl
          simp at shorter
        exact ⟨u ++ y, (List.append_assoc u y v).symm, .more some first others⟩
      · exact ⟨[], rfl, .stop⟩
    · rintro ⟨u, rfl, spells⟩
      rcases spells_star.mp spells with ⟨rfl, rfl⟩ | ⟨x, y, g₁, g₂, some, rfl, rfl, first, others⟩
      · exact Or.inr ⟨rfl, rfl⟩
      · have positive := List.length_pos_iff.mpr some
        simp only [List.length_append] at enough
        refine Or.inl ⟨g₁, g₂, y ++ v, rfl, ⟨(correct _ _ _).mpr ?_, ?_⟩, ?_⟩
        · exact ⟨x, List.append_assoc x y v, first⟩
        · simp only [List.length_append]
          omega
        · apply (ih _).mpr ⟨y, rfl, others⟩
          rw [List.length_append]
          omega

theorem run_correct : Correct r r.run := by
  induction r with
  | empty =>
    intro w g v
    simp [run, spells_empty, and_comm, eq_comm]
  | chars set =>
    intro w g v
    simp only [spells_chars]
    cases w with
    | nil => simp [run]
    | cons c w =>
      unfold run
      by_cases member : set c = true
      · simp only [member, if_true, List.mem_singleton, Prod.mk.injEq]
        constructor
        · rintro ⟨rfl, rfl⟩
          exact ⟨[c], rfl, c, member, rfl, rfl⟩
        · rintro ⟨u, whole, d, _, rfl, rfl⟩
          exact ⟨rfl, (List.cons.inj whole).2.symm⟩
      · rw [if_neg member]
        constructor
        · intro found
          cases found
        · rintro ⟨u, whole, d, inside, rfl, rfl⟩
          rw [(List.cons.inj whole).1] at member
          exact absurd inside member
  | seq r s first second =>
    intro w g v
    rw [run, mem_followed]
    simp only [spells_seq]
    constructor
    · rintro ⟨g₁, g₂, x, rfl, found, behind⟩
      obtain ⟨u, rfl, one⟩ := (first w g₁ x).mp found
      obtain ⟨y, rfl, two⟩ := (second x g₂ v).mp behind
      exact ⟨u ++ y, (List.append_assoc u y v).symm, u, y, g₁, g₂, rfl, rfl, one, two⟩
    · rintro ⟨_, rfl, u, y, g₁, g₂, rfl, rfl, one, two⟩
      refine ⟨g₁, g₂, y ++ v, rfl, ?_, (second _ _ _).mpr ⟨y, rfl, two⟩⟩
      exact (first _ _ _).mpr ⟨u, List.append_assoc u y v, one⟩
  | alt r s left right =>
    intro w g v
    rw [run, List.mem_append, left, right]
    simp only [spells_alt, and_or_left, exists_or]
  | star r one => exact fun w g v => mem_repeated one (Nat.le_refl _)
  | group n r inner =>
    intro w g v
    simp only [run, List.mem_map, Prod.exists, Prod.mk.injEq, spells_group]
    constructor
    · rintro ⟨h, x, found, rfl, rfl⟩
      obtain ⟨u, rfl, spells⟩ := (inner w h x).mp found
      refine ⟨u, rfl, h, ?_, spells⟩
      simp
    · rintro ⟨u, rfl, h, rfl, spells⟩
      refine ⟨h, v, (inner _ _ _).mpr ⟨u, rfl, spells⟩, ?_, rfl⟩
      simp

theorem fullmatch_iff : fullmatch r w = true ↔ ∃ g, Spells r w g := by
  unfold fullmatch
  rw [List.any_eq_true]
  constructor
  · rintro ⟨⟨g, v⟩, found, done⟩
    obtain ⟨u, rfl, spells⟩ := (run_correct w g v).mp found
    obtain rfl := List.isEmpty_iff.mp done
    rw [List.append_nil]
    exact ⟨g, spells⟩
  · rintro ⟨g, spells⟩
    exact ⟨(g, []), (run_correct w g []).mpr ⟨w, (List.append_nil w).symm, spells⟩, rfl⟩

theorem head_spells {m : Groups × List Char} (first : (r.run w).head? = some m) :
    ∃ u, w = u ++ m.2 ∧ Spells r u m.1 :=
  (run_correct w m.1 m.2).mp (List.mem_of_head? first)

/-- No match where no front of the text is spelled. -/
theorem reMatch_none (nothing : ∀ u v g, w = u ++ v → ¬ Spells r u g) : reMatch r w = none := by
  unfold reMatch
  cases first : (r.run w).head? with
  | none => rfl
  | some m =>
    obtain ⟨u, whole, spells⟩ := head_spells first
    exact absurd spells (nothing u m.2 m.1 whole)

/-- Where all ways of spelling a front of the text capture the same, a match captures that. -/
theorem reMatch_some (whole : w = u ++ v) (spells : Spells r u g)
    (unique : ∀ x y h, w = x ++ y → Spells r x h → h = g) : reMatch r w = some g := by
  have found := (run_correct w g v).mpr ⟨u, whole, spells⟩
  unfold reMatch
  cases first : (r.run w).head? with
  | none =>
    rw [List.head?_eq_none_iff.mp first] at found
    cases found
  | some m =>
    obtain ⟨x, front, other⟩ := head_spells first
    rw [Option.map_some, unique x m.2 m.1 front other]

end Correct

section Preferred

theorem head_followed {one : List (Groups × List Char)}
    {next : List Char → List (Groups × List Char)} {m n : Groups × List Char}
    (first : one.head? = some m) (behind : (next m.2).head? = some n) :
    (followed one next).head? = some (m.1 ++ n.1, n.2) := by
  obtain ⟨others, rfl⟩ := List.head?_eq_some_iff.mp first
  obtain ⟨rest, found⟩ := List.head?_eq_some_iff.mp behind
  rw [followed, List.flatMap_cons, found, List.map_cons, List.cons_append, List.head?_cons]

theorem head_seq {x : List Char} (first : (r.run w).head? = some (g, v))
    (behind : (s.run v).head? = some (h, x)) : ((seq r s).run w).head? = some (g ++ h, x) :=
  head_followed first behind

theorem head_text {t : List Char} : ((text t).run (t ++ w)).head? = some ([], w) := by
  induction t with
  | nil => rfl
  | cons c rest ih =>
    have first : ((chars (· == c)).run (c :: (rest ++ w))).head? = some ([], rest ++ w) := by
      rw [run, if_pos (beq_self_eq_true c), List.head?_cons]
    exact head_followed first ih

theorem head_chars {c : Char} (member : set c = true) :
    ((chars set).run (c :: w)).head? = some ([], w) := by
  rw [run, if_pos member, List.head?_cons]

/-- An optional character is taken where it can be. -/
theorem head_opt_some {c : Char} (member : set c = true) :
    ((opt (chars set)).run (c :: w)).head? = some ([], w) := by
  rw [opt, run, List.head?_append, head_chars member]
  rfl

theorem head_opt_none (stop : ∀ c ∈ w.head?, set c = false) :
    ((opt (chars set)).run w).head? = some ([], w) := by
  cases w with
  | nil => rfl
  | cons c w =>
    have none : (chars set).run (c :: w) = [] := by
      rw [run, if_neg (by simp [stop c rfl])]
    rw [opt, run, none]
    rfl

theorem head_group {n : Nat} (inner : (r.run (u ++ v)).head? = some (g, v)) :
    ((group n r).run (u ++ v)).head? = some ((n, u) :: g, v) := by
  rw [run, List.head?_map, inner, Option.map_some]
  simp

theorem head_alt_left {m : Groups × List Char} (first : (r.run w).head? = some m) :
    ((alt r s).run w).head? = some m := by
  rw [run, List.head?_append, first]
  rfl

theorem head_alt_right (fails : r.run w = []) : ((alt r s).run w).head? = (s.run w).head? := by
  rw [run, fails, List.nil_append]

/-- A star takes as many characters as it can. -/
theorem head_star_chars : ((star (chars set)).run w).head? = some ([], w.dropWhile set) := by
  have most : ∀ (fuel : Nat) (w : List Char), w.length ≤ fuel →
      (repeated (chars set).run fuel w).head? = some ([], w.dropWhile set) := by
    intro fuel
    induction fuel with
    | zero =>
      intro w enough
      obtain rfl : w = [] := List.length_eq_zero_iff.mp (by omega)
      rfl
    | succ fuel ih =>
      intro w enough
      rw [repeated]
      cases w with
      | nil => rfl
      | cons c w =>
        rw [List.length_cons] at enough
        by_cases member : set c = true
        · have one : (((chars set).run (c :: w)).filter fun m =>
              m.2.length < (c :: w).length).head? = some ([], w) := by
            simp [run, member]
          have taken := head_followed one (ih w (by omega))
          rw [List.head?_append, taken, List.dropWhile_cons_of_pos member]
          rfl
        · rw [List.dropWhile_cons_of_neg member]
          simp [run, member, followed]
  exact most w.length w (Nat.le_refl _)

/-- Characters are taken as long as they are of the class. -/
theorem head_plus (nonEmpty : u ≠ []) (each : ∀ c ∈ u, set c = true)
    (stop : ∀ c ∈ v.head?, set c = false) :
    ((plus (chars set)).run (u ++ v)).head? = some ([], v) := by
  obtain ⟨c, rest, rfl⟩ := List.exists_cons_of_ne_nil nonEmpty
  obtain ⟨member, others⟩ := List.forall_mem_cons.mp each
  have rest_ : (rest ++ v).dropWhile set = v := by
    rw [List.dropWhile_append_of_pos others]
    cases v with
    | nil => rfl
    | cons d v => exact List.dropWhile_cons_of_neg (by simp [stop d rfl])
  have others_ : ((star (chars set)).run (rest ++ v)).head? = some ([], v) := by
    rw [head_star_chars, rest_]
  exact head_seq (head_chars member) others_

theorem head_group_plus {n : Nat} (nonEmpty : u ≠ []) (each : ∀ c ∈ u, set c = true)
    (stop : ∀ c ∈ v.head?, set c = false) :
    ((group n (plus (chars set))).run (u ++ v)).head? = some ([(n, u)], v) :=
  head_group (head_plus nonEmpty each stop)

theorem repeated_fuel {one : List Char → List (Groups × List Char)} {m n : Nat}
    (enough : w.length ≤ m) (enough' : w.length ≤ n) : repeated one m w = repeated one n w := by
  induction m generalizing n w with
  | zero =>
    obtain rfl : w = [] := List.length_eq_zero_iff.mp (by omega)
    cases n with
    | zero => rfl
    | succ n => simp [repeated, followed]
  | succ m ih =>
    cases n with
    | zero =>
      obtain rfl : w = [] := List.length_eq_zero_iff.mp (by omega)
      simp [repeated, followed]
    | succ n =>
      rw [repeated, repeated, followed, followed]
      congr 1
      apply List.flatMap_congr
      intro found listed
      have shorter : found.2.length < w.length := by simpa using (List.mem_filter.mp listed).2
      rw [ih (n := n) (by omega) (by omega)]

theorem head_star_more {x : List Char} (first : (r.run w).head? = some (g, v))
    (shorter : v.length < w.length) (others : ((star r).run v).head? = some (h, x)) :
    ((star r).run w).head? = some (g ++ h, x) := by
  obtain ⟨n, length⟩ : ∃ n, w.length = n + 1 := ⟨w.length - 1, by omega⟩
  have kept : ((r.run w).filter fun m => m.2.length < w.length).head? = some (g, v) := by
    obtain ⟨rest, found⟩ := List.head?_eq_some_iff.mp first
    rw [found, List.filter_cons_of_pos (by simpa using shorter), List.head?_cons]
  have behind : (repeated r.run n v).head? = some (h, x) := by
    rw [repeated_fuel (by omega) (Nat.le_refl v.length)]
    exact others
  rw [run, length, repeated, List.head?_append, head_followed kept behind]
  rfl

theorem head_star_stop (fails : r.run w = []) : ((star r).run w).head? = some ([], w) := by
  rw [run]
  cases w.length with
  | zero => rfl
  | succ n => simp [repeated, fails, followed]

theorem reMatch_head {m : Groups × List Char} (first : (r.run w).head? = some m) :
    reMatch r w = some m.1 := by
  rw [reMatch, first, Option.map_some]

/-- A match at the front of the text is what a search finds. -/
theorem search_front {m : Groups × List Char} (first : (r.run w).head? = some m) :
    search r w = some m.1 := by
  have found : reMatch r w = some m.1 := reMatch_head first
  cases w with
  | nil => exact found
  | cons c w => rw [search, found]

end Preferred

section Characters

/-- The classes of a pattern have only such characters. -/
def Within (p : Char → Prop) : Pattern → Prop
  | empty => True
  | chars set => ∀ c, set c = true → p c
  | seq r s => r.Within p ∧ s.Within p
  | alt r s => r.Within p ∧ s.Within p
  | star r => r.Within p
  | group _ r => r.Within p

theorem spells_within {p : Char → Prop} (spells : Spells r u g) (within : r.Within p) :
    ∀ c ∈ u, p c := by
  induction spells with
  | empty => exact List.forall_mem_nil _
  | chars member => exact List.forall_mem_singleton.mpr (within _ member)
  | seq _ _ first second => exact List.forall_mem_append.mpr ⟨first within.1, second within.2⟩
  | left _ one => exact one within.1
  | right _ one => exact one within.2
  | stop => exact List.forall_mem_nil _
  | more _ _ _ first others => exact List.forall_mem_append.mpr ⟨first within, others within⟩
  | group _ inner => exact inner within

end Characters

end Pattern
end Nca.Lib
