import Mathlib.Data.List.Basic
import Mathlib.Data.List.Nodup

/-!
Insertion-ordered dictionaries as association lists. A write to a present key keeps the key's
place and replaces its value; a write to a fresh key goes to the end.
-/

namespace Nca.Lib.Dict

variable {κ ν ω : Type} [DecidableEq κ]

/-- `d[k] = v`. -/
def set : List (κ × ν) → κ → ν → List (κ × ν)
  | [], k, v => [(k, v)]
  | e :: rest, k, v => if e.1 = k then (e.1, v) :: rest else e :: set rest k v

/-- `d.get(k)`. -/
def get : List (κ × ν) → κ → Option ν
  | [], _ => none
  | e :: rest, k => if e.1 = k then some e.2 else get rest k

/-- `d == d'` with the comparison of the values. -/
def eq (valueEq : ν → ν → Bool) (d d' : List (κ × ν)) : Bool :=
  decide (d.length = d'.length) && d.all fun e =>
    match get d' e.1 with
    | some v => valueEq e.2 v
    | none => false

/-- Keys of the dictionary, in insertion order. -/
def keys (d : List (κ × ν)) : List κ := d.map Prod.fst

theorem set_fresh {d : List (κ × ν)} {k : κ} (v : ν) (fresh : ∀ e ∈ d, e.1 ≠ k) :
    set d k v = d ++ [(k, v)] := by
  induction d with
  | nil => rfl
  | cons e rest ih =>
    rw [set, if_neg (fresh e List.mem_cons_self),
      ih fun e' member => fresh e' (List.mem_cons_of_mem e member)]
    rfl

theorem get_set (d : List (κ × ν)) (k : κ) (v : ν) (k' : κ) :
    get (set d k v) k' = if k = k' then some v else get d k' := by
  induction d with
  | nil => rfl
  | cons e rest ih =>
    rw [set]
    by_cases same : e.1 = k
    · by_cases hit : k = k' <;> simp [get, same, hit]
    · rw [if_neg same, get, get, ih]
      by_cases hit : e.1 = k'
      · have other : k ≠ k' := fun h => same (hit.trans h.symm)
        simp [hit, other]
      · simp [hit]

theorem keys_set (d : List (κ × ν)) (k : κ) (v : ν) :
    keys (set d k v) = if k ∈ keys d then keys d else keys d ++ [k] := by
  induction d with
  | nil => simp [keys, set]
  | cons e rest ih =>
    rw [set]
    by_cases same : e.1 = k
    · simp [keys, same]
    · rw [if_neg same]
      simp only [keys, List.map_cons] at ih ⊢
      rw [ih]
      have apart : ¬ k = e.1 := fun h => same h.symm
      by_cases inside : k ∈ rest.map Prod.fst <;> simp [inside, apart]

theorem mem_set {d : List (κ × ν)} {k : κ} {v : ν} {e : κ × ν} (member : e ∈ set d k v) :
    e ∈ d ∨ e = (k, v) := by
  induction d with
  | nil => exact Or.inr (List.mem_singleton.mp member)
  | cons first rest ih =>
    rw [set] at member
    by_cases same : first.1 = k
    · rw [if_pos same] at member
      rcases List.mem_cons.mp member with rfl | later
      · exact Or.inr (by rw [same])
      · exact Or.inl (List.mem_cons_of_mem first later)
    · rw [if_neg same] at member
      rcases List.mem_cons.mp member with rfl | later
      · exact Or.inl List.mem_cons_self
      · exact (ih later).imp_left (List.mem_cons_of_mem first)

theorem nodup_keys_set {d : List (κ × ν)} (unique : (keys d).Nodup) (k : κ) (v : ν) :
    (keys (set d k v)).Nodup := by
  rw [keys_set]
  split
  · exact unique
  · rename_i fresh
    exact List.nodup_append.mpr ⟨unique, List.nodup_singleton k, fun a member b single same =>
      fresh (List.mem_singleton.mp single ▸ same ▸ member)⟩

theorem get_mem {d : List (κ × ν)} {k : κ} {v : ν} (h : get d k = some v) : (k, v) ∈ d := by
  induction d with
  | nil => cases h
  | cons e rest ih =>
    rw [get] at h
    by_cases same : e.1 = k
    · rw [if_pos same] at h
      obtain rfl := Option.some.inj h
      subst same
      exact List.mem_cons_self
    · rw [if_neg same] at h
      exact List.mem_cons_of_mem _ (ih h)

theorem get_of_mem {d : List (κ × ν)} {k : κ} {v : ν} (unique : (keys d).Nodup)
    (member : (k, v) ∈ d) : get d k = some v := by
  induction d with
  | nil => cases member
  | cons e rest ih =>
    rw [keys, List.map_cons, List.nodup_cons] at unique
    rcases List.mem_cons.mp member with rfl | later
    · simp [get]
    · have other : e.1 ≠ k := by
        intro same
        exact unique.1 (same ▸ List.mem_map_of_mem later)
      rw [get, if_neg other]
      exact ih unique.2 later

theorem get_isSome {d : List (κ × ν)} {k : κ} : (get d k).isSome ↔ k ∈ keys d := by
  induction d with
  | nil => simp [get, keys]
  | cons e rest ih =>
    rw [get]
    by_cases same : e.1 = k
    · simp [keys, same]
    · have apart : ¬ k = e.1 := fun h => same h.symm
      rw [if_neg same, ih]
      simp [keys, apart]

/-- A write that adds one element to the list of a key adds it to all the lists together. -/
theorem flatMap_set {α : Type} (d : List (κ × List α)) (k : κ) {x : α} {xs : List α}
    (added : xs.Perm (x :: (get d k).getD [])) :
    ((set d k xs).flatMap Prod.snd).Perm (x :: d.flatMap Prod.snd) := by
  induction d with
  | nil => simpa [set, get] using added
  | cons e rest ih =>
    rw [set]
    by_cases same : e.1 = k
    · rw [get, if_pos same] at added
      rw [if_pos same, List.flatMap_cons, List.flatMap_cons]
      exact added.append_right _
    · rw [get, if_neg same] at added
      rw [if_neg same, List.flatMap_cons, List.flatMap_cons]
      exact ((ih added).append_left e.2).trans List.perm_middle

theorem get_filter_ne (d : List (κ × ν)) {k k' : κ} (other : k ≠ k') :
    get (d.filter fun e => decide (e.1 ≠ k')) k = get d k := by
  induction d with
  | nil => rfl
  | cons e rest ih =>
    by_cases deleted : e.1 = k'
    · have apart : ¬ e.1 = k := fun same => other (same.symm.trans deleted)
      rw [List.filter_cons_of_neg (by simpa using deleted), ih, get, if_neg apart]
    · rw [List.filter_cons_of_pos (by simpa using deleted), get, get, ih]

theorem get_filter_eq (d : List (κ × ν)) (k : κ) :
    get (d.filter fun e => decide (e.1 ≠ k)) k = none := by
  induction d with
  | nil => rfl
  | cons e rest ih =>
    by_cases deleted : e.1 = k
    · rw [List.filter_cons_of_neg (by simpa using deleted), ih]
    · rw [List.filter_cons_of_pos (by simpa using deleted), get, if_neg deleted, ih]

theorem foldl_set_fresh {α : Type} (key : α → κ) (value : α → ν) (xs : List α)
    (unique : (xs.map key).Nodup) (d : List (κ × ν)) (fresh : ∀ x ∈ xs, key x ∉ keys d) :
    xs.foldl (fun d x => set d (key x) (value x)) d = d ++ xs.map fun x => (key x, value x) := by
  induction xs generalizing d with
  | nil => simp
  | cons x rest ih =>
    rw [List.map_cons, List.nodup_cons] at unique
    have apart : ∀ e ∈ d, e.1 ≠ key x := fun e member same =>
      fresh x List.mem_cons_self (same ▸ List.mem_map_of_mem member)
    rw [List.foldl_cons, set_fresh _ apart, ih unique.2]
    · simp
    · intro y member inside
      rw [keys, List.map_append, List.mem_append] at inside
      rcases inside with old | new
      · exact fresh y (List.mem_cons_of_mem x member) old
      · rw [List.map_singleton, List.mem_singleton] at new
        have same : key y = key x := new
        exact unique.1 (same ▸ List.mem_map_of_mem member)

/-- A write that extends what the key has adds to the dictionary only what it extends this by. -/
theorem exists_set {d : List (κ × ν)} {k k' : κ} {v : ν} {p : ν → Prop} {added : Prop}
    (extended : p v ↔ (∃ old, get d k = some old ∧ p old) ∨ added) :
    (∃ e ∈ set d k v, e.1 = k' ∧ p e.2) ↔ (∃ e ∈ d, e.1 = k' ∧ p e.2) ∨ k = k' ∧ added := by
  induction d with
  | nil => simpa [set, get] using fun _ => by simpa [get] using extended
  | cons e rest ih =>
    rw [set]
    rw [get] at extended
    split
    case isTrue same =>
      rw [if_pos same] at extended
      simp only [Option.some.injEq, exists_eq_left'] at extended
      rw [List.exists_mem_cons_iff, extended, List.exists_mem_cons_iff, same, and_or_left]
      exact or_right_comm
    case isFalse other =>
      rw [if_neg other] at extended
      rw [List.exists_mem_cons_iff, ih extended, List.exists_mem_cons_iff, or_assoc]

section Lost

variable {α : Type} {items : κ × ν → List α}

/-- A write to a present key loses what the key had. -/
theorem length_flatMap_set {d : List (κ × ν)} (filled : ∀ e ∈ d, items e ≠ []) (k : κ) (v : ν) :
    ((set d k v).flatMap items).length ≤ (d.flatMap items).length + (items (k, v)).length ∧
    (k ∈ keys d → ((set d k v).flatMap items).length <
      (d.flatMap items).length + (items (k, v)).length) := by
  induction d with
  | nil => simp [set, keys]
  | cons e rest ih =>
    obtain ⟨first, others⟩ := List.forall_mem_cons.mp filled
    have positive := List.length_pos_iff.mpr first
    obtain ⟨most, fewer⟩ := ih others
    rw [set]
    by_cases same : e.1 = k
    · rw [if_pos same]
      subst same
      simp only [List.flatMap_cons, List.length_append]
      omega
    · rw [if_neg same]
      simp only [List.flatMap_cons, List.length_append]
      apply And.intro (by omega)
      intro inside
      rw [keys, List.map_cons, List.mem_cons] at inside
      have later := fewer (inside.resolve_left fun first => same first.symm)
      omega

/-- Writes lose nothing only if they are all to different fresh keys. -/
theorem length_flatMap_foldl_set (entries : List (κ × ν)) {d : List (κ × ν)}
    (filled : ∀ e ∈ d, items e ≠ []) (filled' : ∀ e ∈ entries, items e ≠ []) :
    ((entries.foldl (fun d e => set d e.1 e.2) d).flatMap items).length ≤
      (d.flatMap items).length + (entries.flatMap items).length ∧
    (((entries.foldl (fun d e => set d e.1 e.2) d).flatMap items).length =
      (d.flatMap items).length + (entries.flatMap items).length →
        (keys entries).Nodup ∧ ∀ e ∈ entries, e.1 ∉ keys d) := by
  induction entries generalizing d with
  | nil => simp [keys]
  | cons e rest ih =>
    obtain ⟨k, v⟩ := e
    obtain ⟨first, others⟩ := List.forall_mem_cons.mp filled'
    obtain ⟨most, fewer⟩ := length_flatMap_set filled k v
    have filledSet : ∀ e' ∈ set d k v, items e' ≠ [] := by
      intro e' member
      rcases mem_set member with old | rfl
      · exact filled e' old
      · exact first
    obtain ⟨most', fresh'⟩ := ih filledSet others
    rw [List.foldl_cons, List.flatMap_cons, List.length_append]
    dsimp only
    apply And.intro (by omega)
    intro same
    have fresh : k ∉ keys d := by
      intro inside
      have lost := fewer inside
      omega
    obtain ⟨unique, apart⟩ := fresh' (by omega)
    rw [keys_set, if_neg fresh] at apart
    constructor
    · rw [keys, List.map_cons, List.nodup_cons]
      refine ⟨fun inside => ?_, unique⟩
      obtain ⟨e', member, same⟩ := List.mem_map.mp inside
      exact apart e' member (List.mem_append_right _ (List.mem_singleton.mpr same))
    · rw [List.forall_mem_cons]
      exact ⟨fresh, fun e' member inside => apart e' member (List.mem_append_left _ inside)⟩

end Lost
end Nca.Lib.Dict
