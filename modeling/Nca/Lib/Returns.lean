import Mathlib.Data.List.Basic
import Mathlib.Data.List.Forall2
import Mathlib.Data.List.Pairwise

/-!
Total correctness of fallible computations. `Returns m post` says that `m` ends without an error
and that its result satisfies `post`. The rules below follow the shape of a program: sequencing,
branching, and a fold with an invariant over the prefix already processed. `Ends expected m post`
lets the computation also end with an expected error.
-/

namespace Nca.Lib

variable {ε α β γ : Type}

/-- The computation ends without an error, and its result satisfies `post`. -/
def Returns (m : Except ε α) (post : α → Prop) : Prop :=
  ∃ a, m = .ok a ∧ post a

theorem ok_bind (a : α) (f : α → Except ε β) : ((.ok a : Except ε α) >>= f) = f a := rfl

theorem bind_ok {m : Except ε α} {f : α → Except ε β} {b : β} :
    m >>= f = .ok b ↔ ∃ a, m = .ok a ∧ f a = .ok b := by
  cases m with
  | ok a => simp [ok_bind]
  | error e =>
    constructor
    · intro run
      cases run
    · intro ⟨_, run, _⟩
      cases run

theorem map_ok {m : Except ε α} {f : α → β} {b : β} :
    f <$> m = .ok b ↔ ∃ a, m = .ok a ∧ f a = b := by
  cases m <;> simp [Functor.map, Except.map]

theorem forM_ok {f : α → Except ε PUnit} {xs : List α} {u : PUnit} :
    xs.forM f = .ok u ↔ ∀ x ∈ xs, f x = .ok () := by
  induction xs with
  | nil => exact ⟨fun _ => List.forall_mem_nil _, fun _ => rfl⟩
  | cons x rest ih =>
    show (f x >>= fun _ => rest.forM f) = .ok u ↔ _
    rw [bind_ok, List.forall_mem_cons, ← ih]
    exact ⟨fun ⟨_, first, others⟩ => ⟨first, others⟩, fun ⟨first, others⟩ => ⟨(), first, others⟩⟩

theorem mapM_ok {f : α → Except ε β} {xs : List α} {ys : List β} (run : xs.mapM f = .ok ys) :
    List.Forall₂ (fun x y => f x = .ok y) xs ys := by
  induction xs generalizing ys with
  | nil =>
    rw [← Except.ok.inj (show Except.ok [] = Except.ok ys from run)]
    exact .nil
  | cons x rest ih =>
    rw [List.mapM_cons] at run
    obtain ⟨y, first, run⟩ := bind_ok.mp run
    obtain ⟨others, read, last⟩ := bind_ok.mp run
    rw [← Except.ok.inj (show Except.ok (y :: others) = Except.ok ys from last)]
    exact .cons first (ih read)

theorem returns_ok {a : α} {post : α → Prop} (h : post a) :
    Returns (.ok a : Except ε α) post := ⟨a, rfl, h⟩

theorem returns_pure {a : α} {post : α → Prop} (h : post a) :
    Returns (pure a : Except ε α) post := ⟨a, rfl, h⟩

theorem returns_mono {m : Except ε α} {weak strong : α → Prop}
    (h : Returns m strong) (imp : ∀ a, strong a → weak a) : Returns m weak := by
  obtain ⟨a, run, holds⟩ := h
  exact ⟨a, run, imp a holds⟩

theorem returns_and {m : Except ε α} {p q : α → Prop}
    (hp : Returns m p) (hq : Returns m q) : Returns m (fun a => p a ∧ q a) := by
  obtain ⟨a, run, pa⟩ := hp
  obtain ⟨b, run', qb⟩ := hq
  obtain rfl : a = b := Except.ok.inj (run.symm.trans run')
  exact ⟨a, run, pa, qb⟩

theorem returns_bind {m : Except ε α} {f : α → Except ε β} {mid : α → Prop} {post : β → Prop}
    (first : Returns m mid) (next : ∀ a, mid a → Returns (f a) post) : Returns (m >>= f) post := by
  obtain ⟨a, run, holds⟩ := first
  rw [run]
  exact next a holds

theorem returns_map {m : Except ε α} {f : α → β} {post : β → Prop}
    (h : Returns m (fun a => post (f a))) : Returns (m.map f) post := by
  obtain ⟨a, run, holds⟩ := h
  rw [run]
  exact ⟨f a, rfl, holds⟩

theorem returns_ite {c : Prop} [Decidable c] {m n : Except ε α} {post : α → Prop}
    (yes : c → Returns m post) (no : ¬ c → Returns n post) :
    Returns (if c then m else n) post := by
  split
  · exact yes ‹_›
  · exact no ‹_›

/-- A fold whose step keeps `inv`, where `inv` sees the prefix processed so far. -/
theorem returns_foldlM {f : β → α → Except ε β} {xs : List α} {init : β} (inv : List α → β → Prop)
    (start : inv [] init)
    (step : ∀ before x after acc, xs = before ++ x :: after → inv before acc →
      Returns (f acc x) (inv (before ++ [x]))) :
    Returns (xs.foldlM f init) (inv xs) := by
  have walk : ∀ (rest before : List α) (acc : β), xs = before ++ rest → inv before acc →
      Returns (rest.foldlM f acc) (inv xs) := by
    intro rest
    induction rest with
    | nil =>
      intro before acc whole holds
      rw [List.append_nil] at whole
      subst whole
      exact returns_pure holds
    | cons x rest ih =>
      intro before acc whole holds
      rw [List.foldlM_cons]
      refine returns_bind (step before x rest acc whole holds) ?_
      intro next kept
      exact ih (before ++ [x]) next (by simp [whole]) kept
  exact walk xs [] init rfl start

/-- A map whose function returns on every element of the list. -/
theorem returns_mapM {f : α → Except ε β} {xs : List α} {rel : α → β → Prop}
    (each : ∀ x ∈ xs, Returns (f x) (rel x)) :
    Returns (xs.mapM f) (List.Forall₂ rel xs) := by
  induction xs with
  | nil => exact returns_pure .nil
  | cons x rest ih =>
    rw [List.mapM_cons]
    refine returns_bind (each x List.mem_cons_self) ?_
    intro y related
    refine returns_bind (ih fun z member => each z (List.mem_cons_of_mem x member)) ?_
    intro ys all
    exact returns_pure (.cons related all)

section Aligned

variable {rel : α → β → Prop} {xs : List α} {ys : List β} {p : α → Prop} {q : β → Prop}

theorem forall₂_members (aligned : List.Forall₂ rel xs ys) :
    List.Forall₂ (fun x y => x ∈ xs ∧ rel x y) xs ys := by
  rw [List.forall₂_and_left]
  exact ⟨fun _ listed => listed, aligned⟩

theorem forall₂_exists (aligned : List.Forall₂ rel xs ys) (same : ∀ x y, rel x y → (p x ↔ q y)) :
    (∃ x ∈ xs, p x) ↔ ∃ y ∈ ys, q y := by
  induction aligned with
  | nil => simp
  | cons related _ ih => simp [same _ _ related, ih]

theorem forall₂_source (aligned : List.Forall₂ rel xs ys) {y : β} (listed : y ∈ ys) :
    ∃ x ∈ xs, rel x y := by
  obtain ⟨i, bound, rfl⟩ := List.getElem_of_mem listed
  have before : i < xs.length := aligned.length_eq ▸ bound
  exact ⟨xs[i], List.getElem_mem before, aligned.get before bound⟩

theorem forall₂_trans {next : β → γ → Prop} {both : α → γ → Prop} {zs : List γ}
    (first : List.Forall₂ rel xs ys) (second : List.Forall₂ next ys zs)
    (imp : ∀ x y z, rel x y → next y z → both x z) : List.Forall₂ both xs zs := by
  induction first generalizing zs with
  | nil =>
    cases second
    exact .nil
  | cons related _ ih =>
    cases second with
    | cons related' others => exact .cons (imp _ _ _ related related') (ih others)

theorem forall₂_pairwise {r : α → α → Prop} {s : β → β → Prop} (aligned : List.Forall₂ rel xs ys)
    (pairs : xs.Pairwise r) (imp : ∀ x x' y y', rel x y → rel x' y' → r x x' → s y y') :
    ys.Pairwise s := by
  induction aligned with
  | nil => exact .nil
  | cons related others ih =>
    obtain ⟨first, rest⟩ := List.pairwise_cons.mp pairs
    apply List.pairwise_cons.mpr
    refine ⟨?_, ih rest⟩
    intro y' listed
    obtain ⟨i, bound, rfl⟩ := List.getElem_of_mem listed
    have before : i < _ := others.length_eq ▸ bound
    exact imp _ _ _ _ related (others.get before bound) (first _ (List.getElem_mem before))

/-- An item next to what is made of it, if it is an item of the kind that something is made of. -/
def MadeOf (kind : α → Prop) (of : α → β → Prop) (x : α) (res : Option β) : Prop :=
  (res = none → ¬ kind x) ∧ ∀ y, res = some y → of x y

/-- Some item is wanted where something wanted is made of the items. -/
theorem forall₂_made {kind : α → Prop} {of : α → β → Prop} {results : List (Option β)}
    (made : List.Forall₂ (MadeOf kind of) xs results) (kinds : ∀ x, p x → kind x)
    (same : ∀ x y, of x y → (p x ↔ q y)) : (∃ x ∈ xs, p x) ↔ ∃ y, some y ∈ results ∧ q y := by
  have aligned : (∃ x ∈ xs, p x) ↔ ∃ res ∈ results, ∃ y, res = some y ∧ q y := by
    apply forall₂_exists made
    intro x res own
    obtain ⟨nothing, values⟩ := own
    cases res with
    | none => exact iff_of_false (fun wanted => nothing rfl (kinds x wanted)) nofun
    | some y =>
      rw [same x y (values y rfl)]
      exact ⟨fun found => ⟨y, rfl, found⟩, fun ⟨_, equal, found⟩ => Option.some.inj equal ▸ found⟩
  rw [aligned]
  exact ⟨fun ⟨_, listed, y, equal, found⟩ => ⟨y, equal ▸ listed, found⟩,
    fun ⟨y, listed, found⟩ => ⟨some y, listed, y, rfl, found⟩⟩

/-- Items of the kind that differ pairwise make things that do. -/
theorem forall₂_made_apart {τ : Type} {kind : α → Prop} {of : α → β → Prop} {results : List (Option β)}
    {title : α → τ} {name : β → τ} (made : List.Forall₂ (MadeOf kind of) xs results)
    (apart : xs.Pairwise fun x x' => kind x → kind x' → title x ≠ title x')
    (named : ∀ x y, of x y → kind x ∧ name y = title x) :
    results.Pairwise fun res res' => ∀ y, res = some y → ∀ y', res' = some y' → name y ≠ name y' := by
  refine forall₂_pairwise made apart ?_
  intro x x' res res' own own' differ y first y' second same
  obtain ⟨kind, title⟩ := named x y (own.2 y first)
  obtain ⟨kind', title'⟩ := named x' y' (own'.2 y' second)
  rw [title, title'] at same
  exact differ kind kind' same

/-- What is made of such items is known by its name. -/
theorem made_of_name {τ : Type} {name : β → τ} {results : List (Option β)}
    (apart : results.Pairwise fun res res' => ∀ y, res = some y → ∀ y', res' = some y' → name y ≠ name y')
    {y y' : β} (listed : some y ∈ results) (listed' : some y' ∈ results) (same : name y = name y') : y = y' := by
  have either : Std.Symm fun res res' : Option β => ∀ y, res = some y → ∀ y', res' = some y' → name y ≠ name y' :=
    ⟨fun _ _ differ y first y' second same => differ y' second y first same.symm⟩
  by_contra other
  exact apart.forall listed listed' (fun equal => other (Option.some.inj equal)) y rfl y' rfl same

end Aligned

section Errors

variable {expected : ε → Prop} {m : Except ε α}

/-- The computation ends with a result that satisfies `post`, or with an expected error. -/
def Ends (expected : ε → Prop) (m : Except ε α) (post : α → Prop) : Prop :=
  match m with
  | .ok a => post a
  | .error e => expected e

theorem ends_pure {a : α} {post : α → Prop} (h : post a) : Ends expected (pure a) post := h

theorem ends_throw {e : ε} {post : α → Prop} (h : expected e) :
    Ends expected (throw e : Except ε α) post := h

theorem ends_iff {post : α → Prop} : Ends expected m post ↔
    (∀ e, m = .error e → expected e) ∧ ∀ a, m = .ok a → post a := by
  cases m with
  | ok a => simp [Ends]
  | error e => simp [Ends]

theorem ends_mono {weak strong : α → Prop} (h : Ends expected m strong)
    (imp : ∀ a, strong a → weak a) : Ends expected m weak := by
  cases m with
  | ok a => exact imp a h
  | error e => exact h

theorem ends_bind {f : α → Except ε β} {mid : α → Prop} {post : β → Prop}
    (first : Ends expected m mid) (next : ∀ a, mid a → Ends expected (f a) post) :
    Ends expected (m >>= f) post := by
  cases m with
  | ok a => exact next a first
  | error e => exact first

theorem ends_ite {c : Prop} [Decidable c] {n : Except ε α} {post : α → Prop}
    (yes : c → Ends expected m post) (no : ¬ c → Ends expected n post) :
    Ends expected (if c then m else n) post := by
  split
  · exact yes ‹_›
  · exact no ‹_›

/-- A fold whose step keeps `inv`, where `inv` sees the prefix processed so far. -/
theorem ends_foldlM {f : β → α → Except ε β} {xs : List α} {init : β} (inv : List α → β → Prop)
    (start : inv [] init)
    (step : ∀ before x acc, x ∈ xs → inv before acc →
      Ends expected (f acc x) (inv (before ++ [x]))) :
    Ends expected (xs.foldlM f init) (inv xs) := by
  have walk : ∀ (rest before : List α) (acc : β), rest ⊆ xs → inv before acc →
      Ends expected (rest.foldlM f acc) (inv (before ++ rest)) := by
    intro rest
    induction rest with
    | nil =>
      intro before acc _ holds
      rw [List.append_nil]
      exact ends_pure holds
    | cons x rest ih =>
      intro before acc among holds
      obtain ⟨member, others⟩ := List.cons_subset.mp among
      rw [List.foldlM_cons, List.append_cons]
      exact ends_bind (step before x acc member holds) fun next kept => ih _ next others kept
  exact walk xs [] init (List.Subset.refl xs) start

/-- What the steps of a fold that ends without an error keep. -/
theorem foldlM_ok {f : β → α → Except ε β} {xs : List α} {init last : β}
    (inv : List α → β → Prop) (start : inv [] init)
    (step : ∀ before x acc next, inv before acc → f acc x = .ok next → inv (before ++ [x]) next)
    (run : xs.foldlM f init = .ok last) : inv xs last := by
  have kept : Ends (fun _ => True) (xs.foldlM f init) (inv xs) := by
    apply ends_foldlM inv start
    intro before x acc _ holds
    apply ends_iff.mpr
    exact ⟨fun _ _ => trivial, fun next stepped => step before x acc next holds stepped⟩
  exact (ends_iff.mp kept).2 last run

/-- The items of a fold that adds up parsed values are all parsed. -/
theorem foldlM_each {f : α → Except ε γ} {g : β → γ → β} {xs : List α} {init last : β}
    (run : xs.foldlM (fun acc x => g acc <$> f x) init = .ok last) {x : α} (listed : x ∈ xs) :
    ∃ y, f x = .ok y := by
  have all := foldlM_ok (fun before _ => ∀ x ∈ before, ∃ y, f x = .ok y) (List.forall_mem_nil _)
    (fun before x acc next holds stepped => by
      obtain ⟨y, read, _⟩ := map_ok.mp stepped
      exact List.forall_mem_append.mpr ⟨holds, List.forall_mem_singleton.mpr ⟨y, read⟩⟩) run
  exact all x listed

/-- A fold that combines parsed values is a fold over them. -/
theorem foldlM_results {f : α → Except ε γ} {g : β → γ → β} {xs : List α} {init last : β}
    (run : xs.foldlM (fun acc x => g acc <$> f x) init = .ok last) :
    ∃ ys, List.Forall₂ (fun x y => f x = .ok y) xs ys ∧ last = ys.foldl g init := by
  induction xs generalizing init with
  | nil => exact ⟨[], .nil, (Except.ok.inj run).symm⟩
  | cons x rest ih =>
    rw [List.foldlM_cons] at run
    obtain ⟨next, step, run⟩ := bind_ok.mp run
    obtain ⟨y, read, rfl⟩ := map_ok.mp step
    obtain ⟨ys, others, same⟩ := ih run
    exact ⟨y :: ys, .cons read others, same⟩

/-- A fold that combines parsed values, all of which are parsed, is one of the values. -/
theorem foldlM_values {f : α → Except ε γ} {g : β → γ → β} {h : α → γ} {xs : List α} {init : β}
    (each : ∀ x ∈ xs, f x = .ok (h x)) :
    xs.foldlM (fun acc x => g acc <$> f x) init = .ok (xs.foldl (fun acc x => g acc (h x)) init) := by
  induction xs generalizing init with
  | nil => rfl
  | cons x rest ih =>
    obtain ⟨first, others⟩ := List.forall_mem_cons.mp each
    rw [List.foldlM_cons, first]
    exact ih others

theorem ends_mapM {f : α → Except ε β} {xs : List α} {rel : α → β → Prop}
    (each : ∀ x ∈ xs, Ends expected (f x) (rel x)) :
    Ends expected (xs.mapM f) (List.Forall₂ rel xs) := by
  induction xs with
  | nil => exact ends_pure .nil
  | cons x rest ih =>
    rw [List.mapM_cons]
    obtain ⟨first, others⟩ := List.forall_mem_cons.mp each
    refine ends_bind first fun y related => ?_
    refine ends_bind (ih others) fun ys all => ?_
    exact ends_pure (.cons related all)

end Errors
end Nca.Lib
