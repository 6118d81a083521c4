import Nca.Lib.ExactSet
import Mathlib.Data.List.Basic
import Mathlib.Order.Basic

/-!
First-match evaluation. A decision maker allows, denies or passes some points. When several of
them are asked in order, the first that says something about a point decides. The bulk evaluation
keeps three sets, and cuts each newcomer by what is decided already.
-/

namespace Nca.Lib

inductive Verdict where
  | allow
  | deny
  | pass
  deriving DecidableEq, Repr

/-- The points that are allowed, denied and passed. -/
structure Decisions (S : Type) where
  allow : S
  deny : S
  pass : S

namespace Decisions

variable {S α : Type} [ExactSet S α]

/-- No decision. -/
def none : Decisions S := ⟨∅, ∅, ∅⟩

/-- What is said about a point. -/
def verdict (d : Decisions S) (x : α) : Option Verdict :=
  if x ∈ d.allow then some .allow
  else if x ∈ d.deny then some .deny
  else if x ∈ d.pass then some .pass
  else .none

/-- No point gets two verdicts. -/
def Disjoint (d : Decisions S) : Prop :=
  ∀ x, ¬ (x ∈ d.allow ∧ x ∈ d.deny) ∧ ¬ (x ∈ d.allow ∧ x ∈ d.pass) ∧
    ¬ (x ∈ d.deny ∧ x ∈ d.pass)

/-- The newcomer decides what is left open. -/
def combine (d e : Decisions S) : Decisions S where
  allow := d.allow ∪ ((e.allow \ d.deny) \ d.pass)
  deny := d.deny ∪ ((e.deny \ d.allow) \ d.pass)
  pass := d.pass ∪ ((e.pass \ d.deny) \ d.allow)

variable {d e : Decisions S} {x : α}

theorem none_disjoint : (none : Decisions S).Disjoint := fun x => by simp [none]

@[simp] theorem verdict_none : (none : Decisions S).verdict x = Option.none := by
  simp [verdict, none]

theorem verdict_allow : d.verdict x = some .allow ↔ x ∈ d.allow := by
  unfold verdict
  split_ifs <;> simp_all

theorem verdict_deny (disjoint : d.Disjoint) : d.verdict x = some .deny ↔ x ∈ d.deny := by
  have apart := disjoint x
  unfold verdict
  split_ifs <;> simp_all

theorem verdict_pass (disjoint : d.Disjoint) : d.verdict x = some .pass ↔ x ∈ d.pass := by
  have apart := disjoint x
  unfold verdict
  split_ifs <;> simp_all

theorem verdict_eq_none : d.verdict x = .none ↔ x ∉ d.allow ∧ x ∉ d.deny ∧ x ∉ d.pass := by
  unfold verdict
  split_ifs <;> simp_all

theorem combine_disjoint (left : d.Disjoint) (right : e.Disjoint) : (d.combine e).Disjoint := by
  intro x
  have apart := left x
  have apart' := right x
  simp only [combine, ExactSet.mem_union, ExactSet.mem_sdiff]
  grind

theorem combine_verdict (left : d.Disjoint) (right : e.Disjoint) :
    (d.combine e).verdict x = (d.verdict x).or (e.verdict x) := by
  have apart := left x
  have apart' := right x
  simp only [verdict, combine, ExactSet.mem_union, ExactSet.mem_sdiff]
  by_cases allowed : x ∈ d.allow
  · simp [allowed]
  · by_cases denied : x ∈ d.deny
    · simp [allowed, denied]
    · by_cases passed : x ∈ d.pass
      · simp [allowed, denied, passed]
      · simp [allowed, denied, passed]

/-- Evaluation in bulk agrees with asking one after the other. -/
theorem foldl_combine (ds : List (Decisions S)) (start : d.Disjoint)
    (each : ∀ e ∈ ds, Disjoint e) :
    (ds.foldl combine d).Disjoint ∧
      ∀ x, (ds.foldl combine d).verdict x = (d.verdict x).or (ds.findSome? (verdict · x)) := by
  induction ds generalizing d with
  | nil => exact ⟨start, by simp⟩
  | cons e rest ih =>
    obtain ⟨first, others⟩ := List.forall_mem_cons.mp each
    obtain ⟨disjoint, decided⟩ := ih (combine_disjoint start first) others
    refine ⟨disjoint, fun x => ?_⟩
    rw [List.foldl_cons, decided, combine_verdict start first, List.findSome?_cons]
    cases d.verdict x <;> cases e.verdict x <;> rfl

theorem eq_of_verdicts (left : d.Disjoint) (right : e.Disjoint)
    (same : ∀ x, d.verdict x = e.verdict x) : d = e := by
  have allow : d.allow = e.allow := ExactSet.eq_iff.mpr fun x => by
    rw [← verdict_allow, ← verdict_allow, same]
  have deny : d.deny = e.deny := ExactSet.eq_iff.mpr fun x => by
    rw [← verdict_deny left, ← verdict_deny right, same]
  have pass : d.pass = e.pass := ExactSet.eq_iff.mpr fun x => by
    rw [← verdict_pass left, ← verdict_pass right, same]
  cases d
  cases e
  simp_all

end Decisions

section Order

variable {α β : Type} {f : α → Option β}

/-- An element may move behind elements that never contradict it. -/
theorem findSome?_move {before same rest : List α} {e : α}
    (agree : ∀ q ∈ same, ∀ v w, f e = some v → f q = some w → v = w) :
    (before ++ e :: (same ++ rest)).findSome? f = (before ++ (same ++ e :: rest)).findSome? f := by
  rw [List.findSome?_append, List.findSome?_append]
  congr 1
  induction same with
  | nil => rfl
  | cons q same ih =>
    obtain ⟨first, others⟩ := List.forall_mem_cons.mp agree
    have moved : (q :: (same ++ e :: rest)).findSome? f = (q :: e :: (same ++ rest)).findSome? f := by
      rw [List.findSome?_cons, List.findSome?_cons, ih others]
    rw [List.cons_append, List.cons_append, moved]
    simp only [List.findSome?_cons]
    cases saidFirst : f e with
    | none => rfl
    | some v =>
      cases saidNext : f q with
      | none => rfl
      | some w => exact congrArg some (first v w saidFirst saidNext)

/-- In a list that is sorted by a key, where elements of one key do not contradict each other, an
element of the least key that says something decides. -/
theorem findSome?_sorted {γ : Type} [LinearOrder γ] {key : α → γ} {xs : List α} {v : β}
    (sorted : xs.Pairwise fun a b => key a ≤ key b)
    (agree : ∀ a ∈ xs, ∀ b ∈ xs, key a = key b → ∀ v w, f a = some v → f b = some w → v = w) :
    xs.findSome? f = some v ↔ ∃ a ∈ xs, f a = some v ∧ ∀ b ∈ xs, (f b).isSome = true → key a ≤ key b := by
  have first : ∀ {w : β}, xs.findSome? f = some w →
      ∃ a ∈ xs, f a = some w ∧ ∀ b ∈ xs, (f b).isSome = true → key a ≤ key b := by
    intro w found
    obtain ⟨before, a, after, split, said, silent⟩ := List.findSome?_eq_some_iff.mp found
    refine ⟨a, by simp [split], said, ?_⟩
    intro b listed speaks
    rw [split] at listed sorted
    obtain ⟨-, rest, -⟩ := List.pairwise_append.mp sorted
    cases List.mem_append.mp listed with
    | inl earlier => simp [silent b earlier] at speaks
    | inr later =>
      cases List.mem_cons.mp later with
      | inl same => exact same ▸ le_refl _
      | inr behind => exact (List.pairwise_cons.mp rest).1 b behind
  refine ⟨first, ?_⟩
  intro ⟨a, listed, said, least⟩
  cases found : xs.findSome? f with
  | none =>
    have silent := List.findSome?_eq_none_iff.mp found a listed
    rw [said] at silent
    cases silent
  | some w =>
    obtain ⟨b, listed', said', least'⟩ := first found
    have level : key a = key b :=
      le_antisymm (least b listed' (by simp [said'])) (least' a listed (by simp [said]))
    rw [agree a listed b listed' level v w said said']

/-- So it does not matter how elements of one key are ordered. -/
theorem findSome?_sorted_perm {γ : Type} [LinearOrder γ] {key : α → γ} {xs ys : List α}
    (sorted : xs.Pairwise fun a b => key a ≤ key b) (sorted' : ys.Pairwise fun a b => key a ≤ key b)
    (perm : xs.Perm ys)
    (agree : ∀ a ∈ xs, ∀ b ∈ xs, key a = key b → ∀ v w, f a = some v → f b = some w → v = w) :
    xs.findSome? f = ys.findSome? f := by
  have agree' : ∀ a ∈ ys, ∀ b ∈ ys, key a = key b → ∀ v w, f a = some v → f b = some w → v = w :=
    fun a listed b listed' => agree a (perm.mem_iff.mpr listed) b (perm.mem_iff.mpr listed')
  apply Option.ext
  intro v
  rw [findSome?_sorted sorted agree, findSome?_sorted sorted' agree']
  simp only [perm.mem_iff]

end Order
end Nca.Lib
