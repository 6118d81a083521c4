import Nca.CoreDS.MinDFA
import Mathlib.Data.Set.Finite.Basic
import Mathlib.Logic.Function.Basic

/-!
The objects of `MinDFA` with what they know of themselves: whether their words are all words of the
dimension, and the object of their complement. The operations guess both from their operands, and
keep their results in caches, so that later callers get the same objects.
-/

namespace Nca.CoreDS
open Lib

/-- Automata whose operations are exact; what a text denotes is left open. -/
class Fsm (F : Type) where
  decEq : DecidableEq F
  accepts : F → Str → Bool
  ofRegex : Str → F
  or : F → F → F
  and : F → F → F
  sub : F → F → F
  empty : F → Bool
  hasFiniteLen : F → Bool
  accepts_or : ∀ f g w, accepts (or f g) w = (accepts f w || accepts g w)
  accepts_and : ∀ f g w, accepts (and f g) w = (accepts f w && accepts g w)
  accepts_sub : ∀ f g w, accepts (sub f g) w = (accepts f w && !accepts g w)
  empty_iff : ∀ f, empty f = true ↔ ∀ w, accepts f w = false
  hasFiniteLen_iff : ∀ f, hasFiniteLen f = true ↔ {w | accepts f w = true}.Finite

inductive Ternary where
  | FALSE
  | TRUE
  | UNKNOWN
  deriving DecidableEq, Repr

/-- A `MinDFA`; its complement is known by the reference of the object. -/
structure DfaObject (F : Type) where
  fsm : F
  is_all_words : Ternary := .UNKNOWN
  complement_dfa : Option Nat := none

/-- All objects by their references, and the caches of the functions. -/
structure DfaStore (F : Type) where
  objects : List (DfaObject F) := []
  regexes : Str → Option Nat := fun _ => none
  ors : F → F → Option Nat := fun _ _ => none
  ands : F → F → Option Nat := fun _ _ => none
  subs : F → F → Option Nat := fun _ _ => none

variable {F : Type} [Fsm F]

local instance decEqFsm : DecidableEq F := Fsm.decEq

def DfaObject.hasFiniteLen (self : DfaObject F) : Bool :=
  if self.is_all_words = .TRUE then false else Fsm.hasFiniteLen self.fsm

/-- `if res.has_finite_len(): res.is_all_words = FALSE` -/
def DfaObject.markFinite (res : DfaObject F) : DfaObject F :=
  if res.hasFiniteLen then { res with is_all_words := .FALSE } else res

/-- A result that is put into a cache. -/
def cached (cache : F → F → Option Nat) (self other : F) (res : Nat) : F → F → Option Nat :=
  Function.update cache self (Function.update (cache self) other (some res))

namespace DfaStore
variable (store : DfaStore F)

def push (res : DfaObject F) : DfaStore F := { store with objects := store.objects ++ [res] }

/-- `dfa_from_regex` -/
def dfaFromRegex (s : Str) : DfaStore F × Nat :=
  match store.regexes s with
  | some res => (store, res)
  | none =>
    let res := store.objects.length
    let flag : Ternary := if '*' ∉ s then .FALSE else .UNKNOWN
    ({ store.push { fsm := Fsm.ofRegex s, is_all_words := flag } with
      regexes := Function.update store.regexes s (some res) }, res)

/-- `dfa_all_words`; the object may be one that others have. -/
def dfaAllWords (alphabet : Str) : DfaStore F × Nat :=
  let (store, res) := store.dfaFromRegex alphabet
  ({ store with objects := store.objects.modify res fun o => { o with is_all_words := .TRUE } }, res)

/-- `__or__` -/
def or (i j : Nat) : Option (DfaStore F × Nat) := do
  let self ← store.objects[i]?
  let other ← store.objects[j]?
  match store.ors self.fsm other.fsm with
  | some res => some (store, res)
  | none =>
    if self.is_all_words = .TRUE then
      some ({ store with ors := cached store.ors self.fsm other.fsm i }, i)
    else if other.is_all_words = .TRUE then
      some ({ store with ors := cached store.ors self.fsm other.fsm j }, j)
    else
      let res : DfaObject F := { fsm := Fsm.or self.fsm other.fsm }
      let ref := store.objects.length
      some ({ store.push res.markFinite with ors := cached store.ors self.fsm other.fsm ref }, ref)

/-- `__and__` -/
def and (i j : Nat) : Option (DfaStore F × Nat) := do
  let self ← store.objects[i]?
  let other ← store.objects[j]?
  match store.ands self.fsm other.fsm with
  | some res => some (store, res)
  | none =>
    if self.is_all_words = .TRUE then
      some ({ store with ands := cached store.ands self.fsm other.fsm j }, j)
    else if other.is_all_words = .TRUE then
      some ({ store with ands := cached store.ands self.fsm other.fsm i }, i)
    else
      let flag : Ternary :=
        if self.is_all_words = .FALSE ∨ other.is_all_words = .FALSE then .FALSE else .UNKNOWN
      let ref := store.objects.length
      some ({ store.push { fsm := Fsm.and self.fsm other.fsm, is_all_words := flag } with
        ands := cached store.ands self.fsm other.fsm ref }, ref)

/-- The flag that `__sub__` makes from its operands. -/
def subFlag (self other : DfaObject F) : Ternary :=
  let flag : Ternary :=
    if other.is_all_words = .TRUE then .FALSE
    else if !Fsm.empty other.fsm then .FALSE
    else .UNKNOWN
  if self.is_all_words = .TRUE ∧ Fsm.empty other.fsm = true then .TRUE else flag

/-- `__sub__` -/
def sub (i j : Nat) : Option (DfaStore F × Nat) := do
  let self ← store.objects[i]?
  let other ← store.objects[j]?
  match store.subs self.fsm other.fsm with
  | some res => some (store, res)
  | none =>
    match self.is_all_words, other.complement_dfa with
    | .TRUE, some res => some ({ store with subs := cached store.subs self.fsm other.fsm res }, res)
    | _, _ =>
      let res : DfaObject F :=
        { fsm := Fsm.sub self.fsm other.fsm, is_all_words := subFlag self other }
      let ref := store.objects.length
      let linked : DfaStore F :=
        if self.is_all_words = .TRUE then
          { store with objects :=
            store.objects.modify j (fun o => { o with complement_dfa := some ref }) ++
              [{ res.markFinite with complement_dfa := some j }] }
        else store.push res.markFinite
      some ({ linked with subs := cached store.subs self.fsm other.fsm ref }, ref)

/-- `contained_in` -/
def containedIn (i j : Nat) : Option Bool := do
  let self ← store.objects[i]?
  let other ← store.objects[j]?
  if other.is_all_words = .TRUE then some true
  else if self.is_all_words = .TRUE ∧ other.is_all_words = .FALSE then some false
  else some (Fsm.empty (Fsm.sub self.fsm other.fsm))

/-- `is_dfa_wll_words` -/
def isDfaWllWords (i j : Nat) : Option Bool := do
  let self ← store.objects[i]?
  let all_words_dfa ← store.objects[j]?
  if self.is_all_words = .TRUE then some true
  else if self.is_all_words = .FALSE then some false
  else some (!self.hasFiniteLen && decide (self.fsm = all_words_dfa.fsm))

end DfaStore

/-- What a program does with the automata of a dimension. A cache holds 500 results and may drop any
of them at any time. -/
inductive DfaCmd (F : Type) where
  | dfaFromRegex (s : Str)
  | dfaAllWords (alphabet : Str)
  | or (i j : Nat)
  | and (i j : Nat)
  | sub (i j : Nat)
  | drop (regexes : Str → Bool) (ors ands subs : F → F → Bool)

namespace DfaStore

def dropFrom (cache : F → F → Option Nat) (dropped : F → F → Bool) : F → F → Option Nat :=
  fun self other => if dropped self other then none else cache self other

def step (store : DfaStore F) : DfaCmd F → Option (DfaStore F)
  | .dfaFromRegex s => some (store.dfaFromRegex s).1
  | .dfaAllWords alphabet => some (store.dfaAllWords alphabet).1
  | .or i j => (store.or i j).map Prod.fst
  | .and i j => (store.and i j).map Prod.fst
  | .sub i j => (store.sub i j).map Prod.fst
  | .drop regexes ors ands subs => some { store with
      regexes := fun s => if regexes s then none else store.regexes s
      ors := dropFrom store.ors ors
      ands := dropFrom store.ands ands
      subs := dropFrom store.subs subs }

def run (cmds : List (DfaCmd F)) : Option (DfaStore F) := cmds.foldlM step {}

end DfaStore

section Languages

variable {f g : F} {w : Str}

/-- The words of an automaton. -/
def lang (f : F) : Set Str := {w | Fsm.accepts f w = true}

theorem lang_or : lang (Fsm.or f g) = lang f ∪ lang g := by
  ext w
  simp [lang, Fsm.accepts_or]

theorem lang_and : lang (Fsm.and f g) = lang f ∩ lang g := by
  ext w
  simp [lang, Fsm.accepts_and]

theorem lang_sub : lang (Fsm.sub f g) = lang f \ lang g := by
  ext w
  simp [lang, Fsm.accepts_sub]

theorem lang_empty : Fsm.empty f = true ↔ lang f = ∅ := by
  rw [Fsm.empty_iff, Set.eq_empty_iff_forall_notMem]
  simp [lang]

theorem lang_finite : Fsm.hasFiniteLen f = true ↔ (lang f).Finite := Fsm.hasFiniteLen_iff f

end Languages

section Invariant

variable {domain : Set Str} {store store' : DfaStore F} {objects objects' : List (DfaObject F)}
  {o : DfaObject F} {words : Set Str} {i : Nat}

/-- The object denotes the words. -/
def HasWords (objects : List (DfaObject F)) (i : Nat) (words : Set Str) : Prop :=
  ∃ o, objects[i]? = some o ∧ lang o.fsm = words

/-- What an object knows of itself is true. -/
structure FlagsRight (domain : Set Str) (objects : List (DfaObject F)) (o : DfaObject F) : Prop where
  all_words : o.is_all_words = .TRUE → lang o.fsm = domain
  not_all_words : o.is_all_words = .FALSE → lang o.fsm ≠ domain
  complement : ∀ i, o.complement_dfa = some i → HasWords objects i (domain \ lang o.fsm)

/-- All objects are right, and the caches hold what the functions would return. -/
structure DfaStore.Sound (domain : Set Str) (store : DfaStore F) : Prop where
  inside : ∀ o ∈ store.objects, lang o.fsm ⊆ domain
  flags : ∀ o ∈ store.objects, FlagsRight domain store.objects o
  regexes : ∀ s i, store.regexes s = some i → HasWords store.objects i (lang (Fsm.ofRegex s : F))
  ors : ∀ f g i, store.ors f g = some i → HasWords store.objects i (lang f ∪ lang g)
  ands : ∀ f g i, store.ands f g = some i → HasWords store.objects i (lang f ∩ lang g)
  subs : ∀ f g i, store.subs f g = some i → HasWords store.objects i (lang f \ lang g)

/-- Every object is still there with its automaton. -/
def Keeps (objects objects' : List (DfaObject F)) : Prop :=
  ∀ i words, HasWords objects i words → HasWords objects' i words

theorem keeps_push (res : DfaObject F) : Keeps objects (objects ++ [res]) := by
  intro i words ⟨o, found, same⟩
  obtain ⟨bound, _⟩ := List.getElem?_eq_some_iff.mp found
  exact ⟨o, by rw [List.getElem?_append_left bound, found], same⟩

theorem keeps_modify {f : DfaObject F → DfaObject F} (same : ∀ o, (f o).fsm = o.fsm) (j : Nat) :
    Keeps objects (objects.modify j f) := by
  intro i words ⟨o, found, denotes⟩
  refine ⟨if j = i then f o else o, by rw [List.getElem?_modify, found]; rfl, ?_⟩
  split
  · rw [same, denotes]
  · exact denotes

omit [Fsm F] in
theorem mem_modify {f : DfaObject F → DfaObject F} {j : Nat} (member : o ∈ objects.modify j f) :
    o ∈ objects ∨ ∃ o', objects[j]? = some o' ∧ o = f o' := by
  obtain ⟨i, found⟩ := List.mem_iff_getElem?.mp member
  rw [List.getElem?_modify] at found
  cases at_i : objects[i]? with
  | none =>
    rw [at_i] at found
    cases found
  | some o' =>
    rw [at_i] at found
    have changed := Option.some.inj found
    split at changed
    case isTrue here => exact Or.inr ⟨o', here ▸ at_i, changed.symm⟩
    case isFalse => exact Or.inl (changed ▸ List.mem_of_getElem? at_i)

theorem denotes_push (objects : List (DfaObject F)) (res : DfaObject F) :
    HasWords (objects ++ [res]) objects.length (lang res.fsm) :=
  ⟨res, List.getElem?_concat_length, rfl⟩

theorem FlagsRight.keep (right : FlagsRight domain objects o) (keeps : Keeps objects objects') :
    FlagsRight domain objects' o where
  all_words := right.all_words
  not_all_words := right.not_all_words
  complement := fun i known => keeps i _ (right.complement i known)

theorem cached_eq {cache : F → F → Option Nat} {self other f g : F} {res i : Nat}
    (found : cached cache self other res f g = some i) :
    (f = self ∧ g = other ∧ i = res) ∨ cache f g = some i := by
  unfold cached at found
  by_cases first : f = self
  · subst first
    rw [Function.update_self] at found
    by_cases second : g = other
    · subst second
      rw [Function.update_self] at found
      exact Or.inl ⟨rfl, rfl, (Option.some.inj found).symm⟩
    · rw [Function.update_of_ne second] at found
      exact Or.inr found
  · rw [Function.update_of_ne first] at found
    exact Or.inr found

theorem cached_denotes {cache : F → F → Option Nat} {words : F → F → Set Str} {self other : F} {res : Nat}
    (keeps : Keeps objects objects')
    (known : ∀ f g i, cache f g = some i → HasWords objects i (words f g))
    (new : HasWords objects' res (words self other)) :
    ∀ f g i, cached cache self other res f g = some i → HasWords objects' i (words f g) := by
  intro f g i found
  obtain ⟨rfl, rfl, rfl⟩ | old := cached_eq found
  · exact new
  · exact keeps i _ (known f g i old)

namespace DfaStore.Sound

theorem denoted (sound : store.Sound domain) (found : store.objects[i]? = some o) :
    lang o.fsm ⊆ domain ∧ FlagsRight domain store.objects o :=
  have member := List.mem_of_getElem? found
  ⟨sound.inside o member, sound.flags o member⟩

theorem push (sound : store.Sound domain) (res : DfaObject F) (inside : lang res.fsm ⊆ domain)
    (right : FlagsRight domain (store.objects ++ [res]) res) : (store.push res).Sound domain where
  inside := by
    intro o member
    cases List.mem_append.mp member with
    | inl old => exact sound.inside o old
    | inr new => exact List.mem_singleton.mp new ▸ inside
  flags := by
    intro o member
    cases List.mem_append.mp member with
    | inl old => exact (sound.flags o old).keep (keeps_push res)
    | inr new => exact List.mem_singleton.mp new ▸ right
  regexes := fun s i found => keeps_push res i _ (sound.regexes s i found)
  ors := fun f g i found => keeps_push res i _ (sound.ors f g i found)
  ands := fun f g i found => keeps_push res i _ (sound.ands f g i found)
  subs := fun f g i found => keeps_push res i _ (sound.subs f g i found)

/-- One object changes, and keeps its automaton. -/
theorem modify (sound : store.Sound domain) {f : DfaObject F → DfaObject F} {j : Nat}
    (same : ∀ o, (f o).fsm = o.fsm)
    (right : ∀ o, store.objects[j]? = some o → FlagsRight domain store.objects (f o)) :
    ({ store with objects := store.objects.modify j f } : DfaStore F).Sound domain where
  inside := by
    intro o member
    obtain old | ⟨o', found, rfl⟩ := mem_modify member
    · exact sound.inside o old
    · rw [same]
      exact sound.inside o' (List.mem_of_getElem? found)
  flags := by
    intro o member
    obtain old | ⟨o', found, rfl⟩ := mem_modify member
    · exact (sound.flags o old).keep (keeps_modify same j)
    · exact (right o' found).keep (keeps_modify same j)
  regexes := fun s i found => keeps_modify same j i _ (sound.regexes s i found)
  ors := fun f' g i found => keeps_modify same j i _ (sound.ors f' g i found)
  ands := fun f' g i found => keeps_modify same j i _ (sound.ands f' g i found)
  subs := fun f' g i found => keeps_modify same j i _ (sound.subs f' g i found)

end DfaStore.Sound

end Invariant

section Operations

variable {domain : Set Str} {store : DfaStore F} {objects : List (DfaObject F)} {o : DfaObject F}
  {s : Str} {i j : Nat} {result : DfaStore F × Nat}

theorem markFinite_fsm : o.markFinite.fsm = o.fsm := by
  unfold DfaObject.markFinite
  split <;> rfl

/-- Finitely many words are not the whole domain. -/
theorem FlagsRight.markFinite (infinite : domain.Infinite) (right : FlagsRight domain objects o) :
    FlagsRight domain objects o.markFinite := by
  unfold DfaObject.markFinite
  split
  case isFalse => exact right
  case isTrue short =>
    unfold DfaObject.hasFiniteLen at short
    split at short
    · cases short
    · exact ⟨nofun, fun _ all => infinite (all ▸ lang_finite.mp short), right.complement⟩

omit [Fsm F] in
theorem modify_last (f : DfaObject F → DfaObject F) :
    (objects ++ [o]).modify objects.length f = objects ++ [f o] := by
  rw [List.modify_eq_take_cons_drop (by simp)]
  simp

omit [Fsm F] in
theorem modify_before (f : DfaObject F → DfaObject F) (bound : j < objects.length) :
    (objects ++ [o]).modify j f = objects.modify j f ++ [o] := by
  apply List.ext_getElem?
  intro i
  rw [List.getElem?_modify]
  by_cases inside : i < objects.length
  · rw [List.getElem?_append_left inside, List.getElem?_append_left (by simpa using inside),
      List.getElem?_modify]
  · rw [List.getElem?_append_right (by omega), List.getElem?_append_right (by simp; omega),
      List.length_modify]
    split
    · omega
    · exact Option.map_id'

/-- An object that is known to have all words. -/
theorem FlagsRight.allWords (right : FlagsRight domain objects o) (all : lang o.fsm = domain) :
    FlagsRight domain objects { o with is_all_words := .TRUE } :=
  ⟨fun _ => all, nofun, right.complement⟩

omit [Fsm F] in
theorem of_dropFrom {cache : F → F → Option Nat} {dropped : F → F → Bool} {f g : F}
    (found : DfaStore.dropFrom cache dropped f g = some i) : cache f g = some i := by
  unfold DfaStore.dropFrom at found
  split at found
  · cases found
  · exact found

namespace DfaStore.Sound

/-- A new object of a regular expression, which the cache then knows. -/
theorem pushRegex (sound : store.Sound domain) {flag : Ternary}
    (inside : lang (Fsm.ofRegex s : F) ⊆ domain) (all : flag = .TRUE → lang (Fsm.ofRegex s : F) = domain)
    (notAll : flag = .FALSE → lang (Fsm.ofRegex s : F) ≠ domain) :
    ({ store.push { fsm := Fsm.ofRegex s, is_all_words := flag } with
      regexes := Function.update store.regexes s (some store.objects.length) } : DfaStore F).Sound domain := by
  have pushed := sound.push { fsm := Fsm.ofRegex s, is_all_words := flag } inside
    ⟨all, notAll, nofun⟩
  have known : ∀ t i, Function.update store.regexes s (some store.objects.length) t = some i →
      HasWords (store.objects ++ [{ fsm := Fsm.ofRegex s, is_all_words := flag }]) i
        (lang (Fsm.ofRegex t : F)) := by
    intro t i found
    by_cases same : t = s
    · subst same
      rw [Function.update_self] at found
      exact Option.some.inj found ▸ denotes_push _ _
    · rw [Function.update_of_ne same] at found
      exact pushed.regexes t i found
  exact { pushed with regexes := known }

theorem dfaFromRegex (sound : store.Sound domain) (inside : lang (Fsm.ofRegex s : F) ⊆ domain)
    (guess : '*' ∈ s ∨ lang (Fsm.ofRegex s : F) ≠ domain) : (store.dfaFromRegex s).1.Sound domain := by
  unfold DfaStore.dfaFromRegex
  cases store.regexes s with
  | some res => exact sound
  | none =>
    apply sound.pushRegex inside
    · intro all
      split at all <;> cases all
    · intro marked
      split at marked
      case isTrue plain => exact guess.resolve_left plain
      case isFalse => cases marked

theorem dfaAllWords (sound : store.Sound domain) (all : lang (Fsm.ofRegex s : F) = domain) :
    (store.dfaAllWords s).1.Sound domain := by
  unfold DfaStore.dfaAllWords DfaStore.dfaFromRegex
  cases found : store.regexes s with
  | some res =>
    apply sound.modify (f := fun o => { o with is_all_words := .TRUE }) (fun _ => rfl)
    intro o at_res
    obtain ⟨o', at_res', denotes⟩ := sound.regexes s res found
    obtain rfl := Option.some.inj (at_res.symm.trans at_res')
    exact (sound.denoted at_res).2.allWords (denotes.trans all)
  | none =>
    dsimp only [DfaStore.push]
    rw [modify_last]
    exact sound.pushRegex all.subset (fun _ => all) nofun

/-- An object that knows no complement. -/
theorem pushFinite (sound : store.Sound domain) (infinite : domain.Infinite) (res : DfaObject F)
    (inside : lang res.fsm ⊆ domain)
    (right : FlagsRight domain (store.objects ++ [res.markFinite]) res) :
    (store.push res.markFinite).Sound domain ∧
      HasWords (store.push res.markFinite).objects store.objects.length (lang res.fsm) := by
  have denotes := denotes_push store.objects res.markFinite
  rw [markFinite_fsm] at denotes
  apply And.intro (sound.push _ _ (right.markFinite infinite)) denotes
  rw [markFinite_fsm]
  exact inside

theorem or (sound : store.Sound domain) (infinite : domain.Infinite)
    (ran : store.or i j = some result) : result.1.Sound domain := by
  unfold DfaStore.or at ran
  obtain ⟨self, at_i, ran⟩ := Option.bind_eq_some_iff.mp ran
  obtain ⟨other, at_j, ran⟩ := Option.bind_eq_some_iff.mp ran
  obtain ⟨selfInside, selfRight⟩ := sound.denoted at_i
  obtain ⟨otherInside, otherRight⟩ := sound.denoted at_j
  cases hit : store.ors self.fsm other.fsm with
  | some res =>
    simp only [hit] at ran
    cases ran
    exact sound
  | none =>
    simp only [hit] at ran
    split at ran
    case isTrue all =>
      cases ran
      have same : lang self.fsm = lang self.fsm ∪ lang other.fsm :=
        (Set.union_eq_left.mpr (selfRight.all_words all ▸ otherInside)).symm
      exact { sound with
        ors := cached_denotes (fun _ _ known => known) sound.ors ⟨self, at_i, same⟩ }
    case isFalse =>
      split at ran
      case isTrue all =>
        cases ran
        have same : lang other.fsm = lang self.fsm ∪ lang other.fsm :=
          (Set.union_eq_right.mpr (otherRight.all_words all ▸ selfInside)).symm
        exact { sound with
          ors := cached_denotes (fun _ _ known => known) sound.ors ⟨other, at_j, same⟩ }
      case isFalse =>
        cases ran
        have inside : lang (Fsm.or self.fsm other.fsm) ⊆ domain := by
          rw [lang_or]
          exact Set.union_subset selfInside otherInside
        obtain ⟨pushed, denotes⟩ := sound.pushFinite infinite
          { fsm := Fsm.or self.fsm other.fsm } inside ⟨nofun, nofun, nofun⟩
        rw [lang_or] at denotes
        exact { pushed with ors := cached_denotes (fun _ _ known => known) pushed.ors denotes }

theorem and (sound : store.Sound domain) (ran : store.and i j = some result) :
    result.1.Sound domain := by
  unfold DfaStore.and at ran
  obtain ⟨self, at_i, ran⟩ := Option.bind_eq_some_iff.mp ran
  obtain ⟨other, at_j, ran⟩ := Option.bind_eq_some_iff.mp ran
  obtain ⟨selfInside, selfRight⟩ := sound.denoted at_i
  obtain ⟨otherInside, otherRight⟩ := sound.denoted at_j
  cases hit : store.ands self.fsm other.fsm with
  | some res =>
    simp only [hit] at ran
    cases ran
    exact sound
  | none =>
    simp only [hit] at ran
    split at ran
    case isTrue all =>
      cases ran
      have same : lang other.fsm = lang self.fsm ∩ lang other.fsm :=
        (Set.inter_eq_right.mpr (selfRight.all_words all ▸ otherInside)).symm
      exact { sound with
        ands := cached_denotes (fun _ _ known => known) sound.ands ⟨other, at_j, same⟩ }
    case isFalse =>
      split at ran
      case isTrue all =>
        cases ran
        have same : lang self.fsm = lang self.fsm ∩ lang other.fsm :=
          (Set.inter_eq_left.mpr (otherRight.all_words all ▸ selfInside)).symm
        exact { sound with
          ands := cached_denotes (fun _ _ known => known) sound.ands ⟨self, at_i, same⟩ }
      case isFalse =>
        cases ran
        let flag : Ternary :=
          if self.is_all_words = .FALSE ∨ other.is_all_words = .FALSE then .FALSE else .UNKNOWN
        let res : DfaObject F := { fsm := Fsm.and self.fsm other.fsm, is_all_words := flag }
        have words : lang res.fsm = lang self.fsm ∩ lang other.fsm := lang_and
        have inside : lang res.fsm ⊆ domain := words ▸ Set.inter_subset_left.trans selfInside
        have notTrue : flag ≠ .TRUE := by
          dsimp only [flag]
          split <;> nofun
        have notAll : flag = .FALSE → lang res.fsm ≠ domain := by
          intro marked all
          dsimp only [flag] at marked
          split at marked
          case isFalse => cases marked
          case isTrue lacking =>
            have both : domain ⊆ lang self.fsm ∩ lang other.fsm := (words ▸ all).superset
            cases lacking with
            | inl lacks =>
              exact selfRight.not_all_words lacks
                (selfInside.antisymm (both.trans Set.inter_subset_left))
            | inr lacks =>
              exact otherRight.not_all_words lacks
                (otherInside.antisymm (both.trans Set.inter_subset_right))
        have pushed := sound.push res inside
          ⟨fun all => (notTrue all).elim, notAll, nofun⟩
        have denotes := denotes_push store.objects res
        rw [words] at denotes
        exact { pushed with ands := cached_denotes (fun _ _ known => known) pushed.ands denotes }

/-- The flag that subtraction makes is right before it is known whether the words are finite. -/
theorem subFlag_right {self other : DfaObject F} (nonempty : domain.Nonempty)
    (selfRight : FlagsRight domain objects self) (otherInside : lang other.fsm ⊆ domain)
    (otherRight : FlagsRight domain objects other) :
    (subFlag self other = .TRUE → lang self.fsm \ lang other.fsm = domain) ∧
      (subFlag self other = .FALSE → lang self.fsm \ lang other.fsm ≠ domain) := by
  unfold subFlag
  by_cases both : self.is_all_words = .TRUE ∧ Fsm.empty other.fsm = true
  · rw [if_pos both]
    apply And.intro _ nofun
    intro _
    rw [lang_empty.mp both.2, Set.sdiff_empty]
    exact selfRight.all_words both.1
  · rw [if_neg both]
    apply And.intro
    · intro all
      split at all
      · cases all
      · split at all <;> cases all
    · intro marked all
      have avoids : ∀ w ∈ domain, w ∉ lang other.fsm := fun w inside => (all.superset inside).2
      split at marked
      case isTrue whole =>
        obtain ⟨w, inside⟩ := nonempty
        exact avoids w inside (otherRight.all_words whole ▸ inside)
      case isFalse =>
        split at marked
        case isFalse => cases marked
        case isTrue some_ =>
          have nothing : lang other.fsm = ∅ :=
            Set.eq_empty_of_forall_notMem fun w among => avoids w (otherInside among) among
          rw [lang_empty.mpr nothing] at some_
          cases some_

/-- Two objects come to know each other as complements. -/
theorem link (sound : store.Sound domain) {other res : DfaObject F} (at_j : store.objects[j]? = some other)
    (inside : lang res.fsm ⊆ domain) (right : FlagsRight domain store.objects res)
    (complement : lang res.fsm = domain \ lang other.fsm) :
    let objects := store.objects.modify j (fun o => { o with complement_dfa := some store.objects.length }) ++
      [{ res with complement_dfa := some j }]
    ({ store with objects } : DfaStore F).Sound domain ∧
      HasWords objects store.objects.length (lang res.fsm) := by
  intro objects
  obtain ⟨bound, _⟩ := List.getElem?_eq_some_iff.mp at_j
  obtain ⟨otherInside, otherRight⟩ := sound.denoted at_j
  have back : lang other.fsm = domain \ lang res.fsm := by
    rw [complement, Set.sdiff_sdiff_cancel_left otherInside]
  have pushed := sound.push { res with complement_dfa := some j } inside
    { all_words := right.all_words
      not_all_words := right.not_all_words
      complement := by
        intro i known
        obtain rfl := Option.some.inj known
        exact keeps_push _ _ _ ⟨other, at_j, back⟩ }
  have denotes : HasWords objects store.objects.length (lang res.fsm) := by
    have last := denotes_push
      (store.objects.modify j fun o => { o with complement_dfa := some store.objects.length })
      { res with complement_dfa := some j }
    rwa [List.length_modify] at last
  apply And.intro _ denotes
  dsimp only [objects]
  rw [← modify_before _ bound]
  apply pushed.modify (f := fun o => { o with complement_dfa := some store.objects.length }) (fun _ => rfl)
  intro o at_o
  have same : o = other := by
    rw [DfaStore.push, List.getElem?_append_left bound, at_j] at at_o
    exact (Option.some.inj at_o).symm
  subst same
  have kept := otherRight.keep (keeps_push { res with complement_dfa := some j })
  exact
    { all_words := kept.all_words
      not_all_words := kept.not_all_words
      complement := by
        intro i known
        obtain rfl := Option.some.inj known
        exact complement ▸ denotes_push _ _ }

theorem sub (sound : store.Sound domain) (infinite : domain.Infinite)
    (ran : store.sub i j = some result) : result.1.Sound domain := by
  unfold DfaStore.sub at ran
  obtain ⟨self, at_i, ran⟩ := Option.bind_eq_some_iff.mp ran
  obtain ⟨other, at_j, ran⟩ := Option.bind_eq_some_iff.mp ran
  obtain ⟨selfInside, selfRight⟩ := sound.denoted at_i
  obtain ⟨otherInside, otherRight⟩ := sound.denoted at_j
  cases hit : store.subs self.fsm other.fsm with
  | some res =>
    simp only [hit] at ran
    cases ran
    exact sound
  | none =>
    simp only [hit] at ran
    split at ran
    case h_1 res all known =>
      cases ran
      have denotes := otherRight.complement res known
      rw [← selfRight.all_words all] at denotes
      exact { sound with subs := cached_denotes (fun _ _ known => known) sound.subs denotes }
    case h_2 =>
      cases ran
      let res : DfaObject F :=
        { fsm := Fsm.sub self.fsm other.fsm, is_all_words := subFlag self other }
      have words : lang res.fsm = lang self.fsm \ lang other.fsm := lang_sub
      have inside : lang res.fsm ⊆ domain := words ▸ Set.sdiff_subset.trans selfInside
      obtain ⟨all, notAll⟩ := subFlag_right infinite.nonempty selfRight otherInside otherRight
      have right : FlagsRight domain store.objects res := ⟨words ▸ all, words ▸ notAll, nofun⟩
      split
      case isTrue whole =>
        have marked : lang res.markFinite.fsm = lang self.fsm \ lang other.fsm := by
          rw [markFinite_fsm, words]
        obtain ⟨linked, denotes⟩ := sound.link at_j (markFinite_fsm (o := res) ▸ inside)
          (right.markFinite infinite) (marked.trans (by rw [selfRight.all_words whole]))
        rw [marked] at denotes
        exact { linked with subs := cached_denotes (fun _ _ known => known) linked.subs denotes }
      case isFalse =>
        obtain ⟨pushed, denotes⟩ := sound.pushFinite infinite res inside (right.keep (keeps_push _))
        rw [words] at denotes
        exact { pushed with subs := cached_denotes (fun _ _ known => known) pushed.subs denotes }

theorem drop (sound : store.Sound domain) (regexes : Str → Bool) (ors ands subs : F → F → Bool) :
    ({ store with
      regexes := fun s => if regexes s then none else store.regexes s
      ors := dropFrom store.ors ors
      ands := dropFrom store.ands ands
      subs := dropFrom store.subs subs } : DfaStore F).Sound domain where
  inside := sound.inside
  flags := sound.flags
  regexes := by
    intro s i found
    dsimp only at found
    split at found
    · cases found
    · exact sound.regexes s i found
  ors := fun f g i found => sound.ors f g i (of_dropFrom found)
  ands := fun f g i found => sound.ands f g i (of_dropFrom found)
  subs := fun f g i found => sound.subs f g i (of_dropFrom found)

end DfaStore.Sound

end Operations

section Runs

variable {domain : Set Str} {store store' : DfaStore F} {cmd : DfaCmd F} {cmds : List (DfaCmd F)}

/-- The words of a DFA dimension. -/
inductive DfaDomain : Set Str → Prop
  | paths : DfaDomain {w | MinDFA.IsPath w}
  | hosts : DfaDomain {w | ∀ c ∈ w, MinDFA.isAlphabetChar c = true}

theorem DfaDomain.infinite (dimension : DfaDomain domain) : domain.Infinite := by
  have letters : ∀ n, ∀ c ∈ '/' :: List.replicate n 'a', MinDFA.isAlphabetChar c = true := by
    intro n
    rw [List.forall_mem_cons]
    apply And.intro (by decide)
    intro c inside
    rw [List.eq_of_mem_replicate inside]
    decide
  have member : ∀ n, '/' :: List.replicate n 'a' ∈ domain := by
    intro n
    cases dimension with
    | paths => exact ⟨List.prefix_append ['/'] _, letters n⟩
    | hosts => exact letters n
  apply Set.infinite_of_injective_forall_mem (f := fun n => '/' :: List.replicate n 'a') _ member
  intro m n same
  simpa using congrArg List.length same

/-- Regular expressions that denote words of the domain. -/
def DfaCmd.Admissible (domain : Set Str) : DfaCmd F → Prop
  | .dfaFromRegex s => lang (Fsm.ofRegex s : F) ⊆ domain
  | .dfaAllWords alphabet => lang (Fsm.ofRegex alphabet : F) = domain
  | _ => True

/-- What is guessed of a text without a star is so. -/
def DfaCmd.Guessed (domain : Set Str) : DfaCmd F → Prop
  | .dfaFromRegex s => '*' ∈ s ∨ lang (Fsm.ofRegex s : F) ≠ domain
  | _ => True

theorem DfaStore.Sound.step (sound : store.Sound domain) (infinite : domain.Infinite)
    (admissible : cmd.Admissible domain) (guessed : cmd.Guessed domain)
    (stepped : store.step cmd = some store') : store'.Sound domain := by
  cases cmd with
  | dfaFromRegex s =>
    cases stepped
    exact sound.dfaFromRegex admissible guessed
  | dfaAllWords alphabet =>
    cases stepped
    exact sound.dfaAllWords admissible
  | or i j =>
    obtain ⟨result, ran, rfl⟩ := Option.map_eq_some_iff.mp stepped
    exact sound.or infinite ran
  | and i j =>
    obtain ⟨result, ran, rfl⟩ := Option.map_eq_some_iff.mp stepped
    exact sound.and ran
  | sub i j =>
    obtain ⟨result, ran, rfl⟩ := Option.map_eq_some_iff.mp stepped
    exact sound.sub infinite ran
  | drop regexes ors ands subs =>
    cases stepped
    exact sound.drop regexes ors ands subs

theorem DfaStore.Sound.run (sound : store.Sound domain) (infinite : domain.Infinite)
    (admissible : ∀ cmd ∈ cmds, cmd.Admissible domain) (guessed : ∀ cmd ∈ cmds, cmd.Guessed domain)
    (ran : cmds.foldlM DfaStore.step store = some store') : store'.Sound domain := by
  induction cmds generalizing store with
  | nil =>
    cases ran
    exact sound
  | cons cmd rest ih =>
    rw [List.foldlM_cons] at ran
    obtain ⟨next, stepped, ran⟩ := Option.bind_eq_some_iff.mp ran
    obtain ⟨first, others⟩ := List.forall_mem_cons.mp admissible
    obtain ⟨firstGuess, otherGuesses⟩ := List.forall_mem_cons.mp guessed
    exact ih (sound.step infinite first firstGuess stepped) others otherGuesses ran

theorem DfaStore.Sound.nothing : ({} : DfaStore F).Sound domain :=
  ⟨nofun, nofun, nofun, nofun, nofun, nofun⟩

/-- Whatever is made and shared, the objects know the truth of themselves. -/
theorem flagsRight_run (dimension : DfaDomain domain)
    (admissible : ∀ cmd ∈ cmds, cmd.Admissible domain) (guessed : ∀ cmd ∈ cmds, cmd.Guessed domain)
    (ran : DfaStore.run cmds = some store) :
    ∀ o ∈ store.objects, FlagsRight domain store.objects o :=
  (DfaStore.Sound.nothing.run dimension.infinite admissible guessed ran).flags

/-- The shortcut of containment tells what the words tell. -/
theorem containedIn_iff (sound : store.Sound domain) {i j : Nat} {b : Bool}
    (ran : store.containedIn i j = some b) : ∃ self other, store.objects[i]? = some self ∧
      store.objects[j]? = some other ∧ (b = true ↔ lang self.fsm ⊆ lang other.fsm) := by
  unfold DfaStore.containedIn at ran
  obtain ⟨self, at_i, ran⟩ := Option.bind_eq_some_iff.mp ran
  obtain ⟨other, at_j, ran⟩ := Option.bind_eq_some_iff.mp ran
  obtain ⟨selfInside, selfRight⟩ := sound.denoted at_i
  obtain ⟨otherInside, otherRight⟩ := sound.denoted at_j
  apply Exists.intro self
  apply Exists.intro other
  apply And.intro at_i
  apply And.intro at_j
  split at ran
  case isTrue whole =>
    cases ran
    exact iff_of_true rfl (otherRight.all_words whole ▸ selfInside)
  case isFalse =>
    split at ran
    case isTrue apart =>
      cases ran
      apply iff_of_false Bool.false_ne_true
      intro contained
      rw [selfRight.all_words apart.1] at contained
      exact otherRight.not_all_words apart.2 (otherInside.antisymm contained)
    case isFalse =>
      rw [← Option.some.inj ran, lang_empty, lang_sub, Set.sdiff_eq_empty]

/-- What is taken for all words has all words. -/
theorem isDfaWllWords_all (sound : store.Sound domain) {i j : Nat} (all : HasWords store.objects j domain)
    (ran : store.isDfaWllWords i j = some true) : HasWords store.objects i domain := by
  unfold DfaStore.isDfaWllWords at ran
  obtain ⟨self, at_i, ran⟩ := Option.bind_eq_some_iff.mp ran
  obtain ⟨all_words_dfa, at_j, ran⟩ := Option.bind_eq_some_iff.mp ran
  apply Exists.intro self
  apply And.intro at_i
  split at ran
  case isTrue whole => exact (sound.denoted at_i).2.all_words whole
  case isFalse =>
    split at ran
    · cases ran
    · have both := Option.some.inj ran
      rw [Bool.and_eq_true, decide_eq_true_iff] at both
      obtain ⟨o, at_j', denotes⟩ := all
      obtain rfl := Option.some.inj (at_j.symm.trans at_j')
      rw [both.2, denotes]

end Runs

section Samples

open Classical in
noncomputable instance : Fsm WordSet where
  decEq := inferInstance
  accepts := ExactSet.contains
  ofRegex text := MinDFA.dfaFromRegex text
  or s t := s ∪ t
  and s t := s ∩ t
  sub s t := s \ t
  empty s := decide (∀ w, ExactSet.contains s w = false)
  hasFiniteLen s := decide {w | ExactSet.contains s w = true}.Finite
  accepts_or := ExactSet.contains_union
  accepts_and := ExactSet.contains_inter
  accepts_sub := ExactSet.contains_sdiff
  empty_iff _ := decide_eq_true_iff
  hasFiniteLen_iff _ := decide_eq_true_iff

theorem lang_ofRegex (text : Str) :
    lang (Fsm.ofRegex text : WordSet) = {w | w ∈ (Regex.parse text).lang} := by
  ext w
  exact MinDFA.mem_dfaFromRegex (D := WordSet)

theorem lang_alphabet : lang (Fsm.ofRegex MinDFA.default_alphabet_regex : WordSet) =
    {w | ∀ c ∈ w, MinDFA.isAlphabetChar c = true} := by
  rw [lang_ofRegex]
  ext w
  exact (MinDFA.mem_dfaFromRegex (D := WordSet)).symm.trans MinDFA.mem_hostWords

theorem complement_flagsRight : ∃ store : DfaStore WordSet,
    DfaStore.run [.dfaAllWords MinDFA.default_alphabet_regex, .dfaFromRegex ['a'], .sub 0 1] = some store ∧
      ∀ o ∈ store.objects, FlagsRight {w | ∀ c ∈ w, MinDFA.isAlphabetChar c = true} store.objects o := by
  have letter : lang (Fsm.ofRegex ['a'] : WordSet) = {['a']} := by
    rw [lang_ofRegex]
    ext w
    simp [Regex.parse, Regex.Reader.step, Regex.Group.push, Regex.Group.close, Regex.Group.body,
      Regex.plain]
  have inside : lang (Fsm.ofRegex ['a'] : WordSet) ⊆ {w | ∀ c ∈ w, MinDFA.isAlphabetChar c = true} := by
    rw [letter]
    intro w among c member
    rw [Set.mem_singleton_iff.mp among, List.mem_singleton] at member
    rw [member]
    decide
  have notAll : lang (Fsm.ofRegex ['a'] : WordSet) ≠ {w | ∀ c ∈ w, MinDFA.isAlphabetChar c = true} := by
    rw [letter]
    intro same
    have empty : ([] : Str) ∈ ({['a']} : Set Str) := same ▸ List.forall_mem_nil _
    cases empty
  have admissible : ∀ cmd ∈ ([.dfaAllWords MinDFA.default_alphabet_regex, .dfaFromRegex ['a'],
      .sub 0 1] : List (DfaCmd WordSet)), cmd.Admissible {w | ∀ c ∈ w, MinDFA.isAlphabetChar c = true} := by
    rw [List.forall_mem_cons, List.forall_mem_cons, List.forall_mem_singleton]
    exact ⟨lang_alphabet, inside, trivial⟩
  have guessed : ∀ cmd ∈ ([.dfaAllWords MinDFA.default_alphabet_regex, .dfaFromRegex ['a'],
      .sub 0 1] : List (DfaCmd WordSet)), cmd.Guessed {w | ∀ c ∈ w, MinDFA.isAlphabetChar c = true} := by
    rw [List.forall_mem_cons, List.forall_mem_cons, List.forall_mem_singleton]
    exact ⟨trivial, Or.inr notAll, trivial⟩
  apply Exists.intro _
  apply And.intro rfl
  exact flagsRight_run .hosts admissible guessed rfl

/-- The text that `parse_regex_dimension_values` makes of the values `*` and the empty one. -/
def plusRegex : Str := "[.\\w/\\-]+|".toList

theorem lang_plusRegex : lang (Fsm.ofRegex plusRegex : WordSet) =
    {w | ∀ c ∈ w, MinDFA.isAlphabetChar c = true} := by
  have same : (fun c => (((false || c == '.') || Regex.escaped 'w' c) || c == '/') || Regex.escaped '-' c) =
      MinDFA.isAlphabetChar := by
    funext c
    simp [MinDFA.isAlphabetChar, Regex.escaped]
  have read : Regex.parse plusRegex = .alt (.seq .epsilon (.seq (.chars MinDFA.isAlphabetChar)
      (.star (.chars MinDFA.isAlphabetChar)))) .epsilon := by
    rw [← same]
    rfl
  rw [lang_ofRegex, read]
  ext w
  cases w with
  | nil => exact iff_of_true (Or.inr rfl) (List.forall_mem_nil _)
  | cons c rest =>
    apply Iff.intro
    · intro among
      obtain ⟨_, rfl, _, ⟨_, ⟨d, first, rfl⟩, others, starred, rfl⟩, spelled⟩ := among.resolve_right (List.cons_ne_nil c rest)
      rw [← spelled]
      exact List.forall_mem_cons.mpr ⟨first, Regex.mem_star_chars.mp starred⟩
    · intro each
      obtain ⟨first, others⟩ := List.forall_mem_cons.mp each
      exact Or.inl ⟨[], rfl, c :: rest, ⟨[c], ⟨c, first, rfl⟩, rest, Regex.mem_star_chars.mpr others, rfl⟩, rfl⟩

/-- All words of the domain, made with a plus: the object is taken for one that lacks words, and the
domain for no part of it. -/
theorem plusRegex_flagged : ∃ store : DfaStore WordSet,
    DfaStore.run [.dfaAllWords MinDFA.default_alphabet_regex, .dfaFromRegex plusRegex] = some store ∧
      (lang (Fsm.ofRegex plusRegex : WordSet) = {w | ∀ c ∈ w, MinDFA.isAlphabetChar c = true}) ∧
      (∃ o ∈ store.objects, o.is_all_words = .FALSE ∧
        lang o.fsm = {w | ∀ c ∈ w, MinDFA.isAlphabetChar c = true}) ∧
      store.containedIn 0 1 = some false := by
  apply Exists.intro _
  apply And.intro rfl
  apply And.intro lang_plusRegex
  apply And.intro _ rfl
  exact ⟨{ fsm := Fsm.ofRegex plusRegex, is_all_words := .FALSE }, List.mem_cons_of_mem _ (List.mem_singleton_self _),
    rfl, lang_plusRegex⟩

end Samples
end Nca.CoreDS
