import Mathlib.Computability.Language

/-!
Regular expressions and their text form: plain characters, `.` for any character, classes such as
`[.\w/\-]`, groups, alternatives and the operators `*`, `+` and `?`. One pass over a text reads it.
-/

namespace Nca.Lib
open scoped Computability

/-- A letter, a digit or an underscore. -/
def isWordChar (c : Char) : Bool := c.isAlphanum || c == '_'

inductive Regex where
  | epsilon
  | chars (set : Char → Bool)
  | seq (r s : Regex)
  | alt (r s : Regex)
  | star (r : Regex)

namespace Regex

/-- The words of an expression. -/
def lang : Regex → Language Char
  | epsilon => 1
  | chars set => {w | ∃ c, set c = true ∧ w = [c]}
  | seq r s => r.lang * s.lang
  | alt r s => r.lang + s.lang
  | star r => r.lang∗

variable {r s : Regex} {w : List Char}

@[simp] theorem mem_epsilon : w ∈ epsilon.lang ↔ w = [] := Iff.rfl

@[simp] theorem mem_chars {set : Char → Bool} :
    w ∈ (chars set).lang ↔ ∃ c, set c = true ∧ w = [c] := Iff.rfl

@[simp] theorem mem_seq : w ∈ (seq r s).lang ↔ ∃ u ∈ r.lang, ∃ v ∈ s.lang, u ++ v = w :=
  Language.mem_mul

@[simp] theorem mem_alt : w ∈ (alt r s).lang ↔ w ∈ r.lang ∨ w ∈ s.lang := Iff.rfl

@[simp] theorem mem_star_chars {set : Char → Bool} :
    w ∈ (star (chars set)).lang ↔ ∀ c ∈ w, set c = true := by
  show w ∈ (chars set).lang∗ ↔ _
  rw [Language.mem_kstar]
  constructor
  · rintro ⟨words, rfl, each⟩ c inside
    obtain ⟨word, among, inside⟩ := List.mem_flatten.mp inside
    obtain ⟨d, valid, rfl⟩ := mem_chars.mp (each word among)
    rw [List.mem_singleton.mp inside]
    exact valid
  · intro each
    refine ⟨w.map fun c => [c], ?_, ?_⟩
    · rw [← List.flatMap_def, List.flatMap_singleton']
    · intro word among
      obtain ⟨c, inside, rfl⟩ := List.mem_map.mp among
      exact ⟨c, each c inside, rfl⟩

section Text

/-- An open group: the alternatives before the last `|`, and the expressions since then, the last
of them apart because an operator may follow it. -/
structure Group where
  alternatives : Option Regex := none
  front : Regex := .epsilon
  last : Option Regex := none

namespace Group

def body (group : Group) : Regex :=
  match group.last with
  | none => group.front
  | some r => .seq group.front r

def close (group : Group) : Regex :=
  match group.alternatives with
  | none => group.body
  | some r => .alt r group.body

def push (group : Group) (r : Regex) : Group := { group with front := group.body, last := some r }

def operate (group : Group) (f : Regex → Regex) : Group := { group with last := group.last.map f }

end Group

inductive Mode where
  | text
  | escape
  | charClass (set : Char → Bool) (escaped : Bool)

/-- A text that is read up to some character. -/
structure Reader where
  outer : List Group := []
  group : Group := {}
  mode : Mode := .text

/-- What an escaped character stands for. -/
def escaped (c : Char) : Char → Bool := if c = 'w' then isWordChar else (· == c)

/-- The expression of a plain character, which `.` is one of. -/
def plain (c : Char) : Regex := .chars fun d => c == '.' || d == c

def Reader.step (reader : Reader) (c : Char) : Reader :=
  match reader.mode with
  | .text =>
    match c with
    | '\\' => { reader with mode := .escape }
    | '[' => { reader with mode := .charClass (fun _ => false) false }
    | '(' => { reader with outer := reader.group :: reader.outer, group := {} }
    | ')' =>
      match reader.outer with
      | [] => reader
      | group :: outer => { reader with outer := outer, group := group.push reader.group.close }
    | '|' => { reader with group := { alternatives := some reader.group.close } }
    | '*' => { reader with group := reader.group.operate .star }
    | '+' => { reader with group := reader.group.operate fun r => .seq r (.star r) }
    | '?' => { reader with group := reader.group.operate fun r => .alt .epsilon r }
    | c => { reader with group := reader.group.push (plain c) }
  | .escape => { reader with group := reader.group.push (.chars (escaped c)), mode := .text }
  | .charClass set true => { reader with mode := .charClass (fun d => set d || escaped c d) false }
  | .charClass set false =>
    match c with
    | ']' => { reader with group := reader.group.push (.chars set), mode := .text }
    | '\\' => { reader with mode := .charClass set true }
    | c => { reader with mode := .charClass (fun d => set d || d == c) false }

/-- The expression that a text stands for. -/
def parse (text : List Char) : Regex := (text.foldl Reader.step {}).group.close

/-- Not an operator. -/
def Plain (c : Char) : Prop := c ∉ ['\\', '[', '(', ')', '|', '*', '+', '?']

/-- The pattern is read as the word, character by character. -/
def Reads (pattern word : List Char) : Prop :=
  List.Forall₂ (fun c d => c = '.' ∨ c = d) pattern word

variable {ι : Type} {pattern : List Char} {group : Group} {outer : List Group}

theorem step_plain {c : Char} (ordinary : Plain c) :
    Reader.step ⟨outer, group, .text⟩ c = ⟨outer, group.push (plain c), .text⟩ := by
  simp only [Plain, List.mem_cons, List.not_mem_nil, or_false, not_or] at ordinary
  unfold Reader.step
  dsimp only
  split <;> simp_all

theorem mem_plain {c : Char} :
    w ∈ (plain c).lang ↔ ∃ d, (c = '.' ∨ c = d) ∧ w = [d] := by
  simp only [plain, mem_chars, Bool.or_eq_true, beq_iff_eq]
  exact exists_congr fun d => and_congr_left' (or_congr_right eq_comm)

theorem push_body {r : Regex} : (group.push r).body = .seq group.body r := rfl

/-- The word consists of words of the expressions of the items, in their order. -/
inductive Spells (item : ι → Regex) : List ι → List Char → Prop
  | nil : Spells item [] []
  | cons {x : ι} {xs : List ι} {u v : List Char} (first : u ∈ (item x).lang)
      (rest : Spells item xs v) : Spells item (x :: xs) (u ++ v)

section Items

variable {item : ι → Regex} (text : ι → List Char) {xs : List ι}

theorem read_items (reads : ∀ x ∈ xs, ∀ group, (text x).foldl Reader.step ⟨outer, group, .text⟩ =
      ⟨outer, group.push (item x), .text⟩) :
    (xs.flatMap text).foldl Reader.step ⟨outer, group, .text⟩ =
      ⟨outer, xs.foldl (fun group x => group.push (item x)) group, .text⟩ := by
  induction xs generalizing group with
  | nil => rfl
  | cons x rest ih =>
    obtain ⟨first, others⟩ := List.forall_mem_cons.mp reads
    rw [List.flatMap_cons, List.foldl_append, first, ih others, List.foldl_cons]

theorem mem_pushed : w ∈ (xs.foldl (fun group x => group.push (item x)) group).body.lang ↔
    ∃ u ∈ group.body.lang, ∃ v, Spells item xs v ∧ u ++ v = w := by
  induction xs generalizing group w with
  | nil =>
    constructor
    · intro inside
      exact ⟨w, inside, [], .nil, List.append_nil w⟩
    · rintro ⟨u, inside, _, ⟨⟩, rfl⟩
      rwa [List.append_nil]
  | cons x rest ih =>
    rw [List.foldl_cons, ih]
    simp only [push_body, mem_seq]
    constructor
    · rintro ⟨_, ⟨t, inside, u, first, rfl⟩, v, spells, rfl⟩
      exact ⟨t, inside, u ++ v, .cons first spells, (List.append_assoc t u v).symm⟩
    · rintro ⟨t, inside, _, spells, rfl⟩
      cases spells with
      | cons first spells =>
        exact ⟨_, ⟨t, inside, _, first, rfl⟩, _, spells, List.append_assoc t _ _⟩

theorem pushed_alternatives :
    (xs.foldl (fun group x => group.push (item x)) group).alternatives = group.alternatives := by
  induction xs generalizing group with
  | nil => rfl
  | cons x rest ih => exact ih

/-- A text of items stands for the words that the items spell. -/
theorem mem_parse_items (reads : ∀ x ∈ xs, ∀ group, (text x).foldl Reader.step ⟨[], group, .text⟩ =
      ⟨[], group.push (item x), .text⟩) :
    w ∈ (parse (xs.flatMap text)).lang ↔ Spells item xs w := by
  unfold parse
  rw [read_items text reads]
  dsimp only
  rw [Group.close, pushed_alternatives]
  dsimp only
  rw [mem_pushed]
  simp [Group.body]

/-- Texts of items with `|` between them stand for the words that the items of one text spell. -/
theorem mem_read_alternatives {xss : List (List ι)} (nonEmpty : xss ≠ []) (before : Option Regex)
    (reads : ∀ xs ∈ xss, ∀ x ∈ xs, ∀ group, (text x).foldl Reader.step ⟨[], group, .text⟩ =
      ⟨[], group.push (item x), .text⟩) :
    w ∈ ((['|'].intercalate (xss.map fun xs => xs.flatMap text)).foldl Reader.step
      ⟨[], { alternatives := before }, .text⟩).group.close.lang ↔
    (∃ r, before = some r ∧ w ∈ r.lang) ∨ ∃ xs ∈ xss, Spells item xs w := by
  have closed : ∀ (before : Option Regex) (xs : List ι) (w : List Char),
      w ∈ (xs.foldl (fun group x => group.push (item x))
        ({ alternatives := before } : Group)).close.lang ↔
      (∃ r, before = some r ∧ w ∈ r.lang) ∨ Spells item xs w := by
    intro before xs w
    rw [Group.close, pushed_alternatives]
    cases before with
    | none =>
      dsimp only
      rw [mem_pushed]
      simp [Group.body]
    | some r =>
      dsimp only
      rw [mem_alt, mem_pushed]
      simp [Group.body]
  induction xss generalizing before with
  | nil => exact (nonEmpty rfl).elim
  | cons xs rest ih =>
    obtain ⟨first, others⟩ := List.forall_mem_cons.mp reads
    rw [List.map_cons]
    cases rest with
    | nil =>
      rw [List.map_nil, List.intercalate_singleton, read_items text first, closed]
      simp
    | cons ys rest =>
      rw [List.map_cons, List.intercalate_cons_cons, ← List.map_cons, List.foldl_append,
        List.foldl_append, read_items text first]
      -- the bar closes the alternative before it
      have bar : ∀ group : Group, ['|'].foldl Reader.step ⟨[], group, .text⟩ =
          ⟨[], { alternatives := some group.close }, .text⟩ := fun _ => rfl
      rw [bar]
      refine (ih (List.cons_ne_nil _ _) _ others).trans ?_
      simp only [Option.some.injEq, exists_eq_left', closed, List.exists_mem_cons_iff, or_assoc]

theorem mem_parse_alternatives {xss : List (List ι)} (nonEmpty : xss ≠ [])
    (reads : ∀ xs ∈ xss, ∀ x ∈ xs, ∀ group, (text x).foldl Reader.step ⟨[], group, .text⟩ =
      ⟨[], group.push (item x), .text⟩) :
    w ∈ (parse (['|'].intercalate (xss.map fun xs => xs.flatMap text))).lang ↔
      ∃ xs ∈ xss, Spells item xs w := by
  unfold parse
  rw [mem_read_alternatives text nonEmpty none reads]
  simp

end Items

theorem spells_singleton {item : ι → Regex} {x : ι} : Spells item [x] w ↔ w ∈ (item x).lang := by
  constructor
  · intro spells
    cases spells with
    | cons first rest =>
      cases rest
      rwa [List.append_nil]
  · intro inside
    rw [← List.append_nil w]
    exact .cons inside .nil

theorem spells_append {item : ι → Regex} {xs ys : List ι} :
    Spells item (xs ++ ys) w ↔ ∃ u v, Spells item xs u ∧ Spells item ys v ∧ w = u ++ v := by
  induction xs generalizing w with
  | nil =>
    constructor
    · intro spells
      exact ⟨[], w, .nil, spells, rfl⟩
    · rintro ⟨_, v, ⟨⟩, spells, rfl⟩
      exact spells
  | cons x rest ih =>
    constructor
    · intro spells
      cases spells with
      | @cons _ _ t _ first others =>
        obtain ⟨u, v, left, right, rfl⟩ := ih.mp others
        exact ⟨t ++ u, v, .cons first left, right, (List.append_assoc t u v).symm⟩
    · rintro ⟨_, v, spells, right, rfl⟩
      cases spells with
      | cons first left =>
        rw [List.append_assoc]
        exact .cons first (ih.mpr ⟨_, v, left, right, rfl⟩)

theorem spells_plain : Spells plain pattern w ↔ Reads pattern w := by
  constructor
  · intro spells
    induction spells with
    | nil => exact .nil
    | cons first _ ih =>
      obtain ⟨d, matched, rfl⟩ := mem_plain.mp first
      exact .cons matched ih
  · intro reads
    induction reads with
    | nil => exact .nil
    | cons matched _ ih => exact .cons (mem_plain.mpr ⟨_, matched, rfl⟩) ih

theorem mem_parse_plain (ordinary : ∀ c ∈ pattern, Plain c) :
    w ∈ (parse pattern).lang ↔ Reads pattern w := by
  rw [← spells_plain, ← mem_parse_items fun c => [c], List.flatMap_singleton']
  exact fun c inside group => step_plain (ordinary c inside)

/-- A suffix that adds one expression to the group it is read in adds its words. -/
theorem mem_parse_append {suffix : List Char} {r : Regex} (ordinary : ∀ c ∈ pattern, Plain c)
    (appends : ∀ group : Group, suffix.foldl Reader.step ⟨[], group, .text⟩ =
      ⟨[], group.push r, .text⟩) :
    w ∈ (parse (pattern ++ suffix)).lang ↔ ∃ u v, Reads pattern u ∧ v ∈ r.lang ∧ w = u ++ v := by
  have read : pattern.foldl Reader.step ⟨[], {}, .text⟩ =
      ⟨[], pattern.foldl (fun group c => group.push (plain c)) {}, .text⟩ := by
    have items : (pattern.flatMap fun c => [c]).foldl Reader.step ⟨[], {}, .text⟩ = _ :=
      read_items _ fun c inside group => step_plain (ordinary c inside)
    rwa [List.flatMap_singleton'] at items
  unfold parse
  rw [List.foldl_append, read, appends]
  dsimp only
  rw [Group.close]
  have none : ((pattern.foldl (fun (group : Group) c => group.push (plain c)) {}).push
      r).alternatives = none := pushed_alternatives
  rw [none]
  dsimp only
  rw [push_body, mem_seq]
  constructor
  · rintro ⟨u, inside, v, member, rfl⟩
    obtain ⟨_, rfl, u, spells, rfl⟩ := mem_pushed.mp inside
    exact ⟨u, v, spells_plain.mp spells, member, rfl⟩
  · rintro ⟨u, v, reads, member, rfl⟩
    exact ⟨u, mem_pushed.mpr ⟨[], rfl, u, spells_plain.mpr reads, rfl⟩, v, member, rfl⟩

end Text
end Regex
end Nca.Lib
