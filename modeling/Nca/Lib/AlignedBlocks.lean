import Mathlib.Data.List.Pairwise
import Mathlib.Data.List.Basic
import Mathlib.Algebra.Group.Nat.Defs

/-!
Ranges of numbers as aligned blocks. A block has a power of two as its size and starts at a multiple of
it. The greedy cover of a range takes the largest block that fits wherever it stands. Its blocks follow
each other, and no block inside the range has the starts of two of them.
-/

namespace Nca.Lib.AlignedBlocks

/-- The zeros at the end of a number of so many bits. -/
def countRighthandZeroBits (number : Nat) : Nat → Nat
  | 0 => 0
  | bits + 1 => if number % 2 = 1 then 0 else countRighthandZeroBits (number / 2) bits + 1

/-- A block: where it starts, and the exponent of its size. -/
structure Block where
  start : Nat
  size : Nat
  deriving DecidableEq

namespace Block

instance : Membership Nat Block := ⟨fun b x => b.start ≤ x ∧ x < b.start + 2 ^ b.size⟩

def Aligned (b : Block) : Prop := 2 ^ b.size ∣ b.start

variable {b c : Block} {x : Nat}

theorem mem_iff : x ∈ b ↔ b.start ≤ x ∧ x < b.start + 2 ^ b.size := Iff.rfl

theorem start_mem : b.start ∈ b := ⟨Nat.le_refl _, Nat.lt_add_of_pos_right (Nat.two_pow_pos _)⟩

/-- Of two aligned blocks that meet the smaller one lies in the other one. -/
theorem nested (aligned : b.Aligned) (aligned' : c.Aligned) (smaller : b.size ≤ c.size) (inside : x ∈ b)
    (inside' : x ∈ c) : ∀ y ∈ b, y ∈ c := by
  obtain ⟨p, start⟩ := aligned
  obtain ⟨q, start'⟩ := aligned'
  obtain ⟨k, sizes⟩ := Nat.pow_dvd_pow 2 smaller
  have positive := Nat.two_pow_pos b.size
  rw [mem_iff, start] at inside
  rw [mem_iff, start', sizes, Nat.mul_assoc] at inside'
  -- in units of the smaller block
  have low : k * q < p + 1 := by
    apply Nat.lt_of_mul_lt_mul_left (a := 2 ^ b.size)
    rw [Nat.mul_succ]
    omega
  have high : p < k * q + k := by
    apply Nat.lt_of_mul_lt_mul_left (a := 2 ^ b.size)
    rw [Nat.mul_add]
    omega
  have first : 2 ^ b.size * (k * q) ≤ 2 ^ b.size * p := Nat.mul_le_mul_left _ (by omega)
  have last : 2 ^ b.size * (p + 1) ≤ 2 ^ b.size * (k * q + k) := Nat.mul_le_mul_left _ (by omega)
  rw [Nat.mul_succ, Nat.mul_add] at last
  intro y member
  rw [mem_iff, start] at member
  rw [mem_iff, start', sizes, Nat.mul_assoc]
  omega

end Block

section Zeros

variable {number n bits : Nat}

theorem countRighthandZeroBits_le : countRighthandZeroBits number bits ≤ bits := by
  induction bits generalizing number with
  | zero => exact Nat.le_refl 0
  | succ bits ih =>
    unfold countRighthandZeroBits
    split
    · exact Nat.zero_le _
    · exact Nat.succ_le_succ ih

/-- The powers of two that divide the number, up to its bits. -/
theorem pow_dvd_iff (few : n ≤ bits) : 2 ^ n ∣ number ↔ n ≤ countRighthandZeroBits number bits := by
  induction bits generalizing number n with
  | zero =>
    rw [Nat.le_zero.mp few]
    simp
  | succ bits ih =>
    cases n with
    | zero => simp
    | succ n =>
      unfold countRighthandZeroBits
      split
      case isTrue odd =>
        refine iff_of_false ?_ (by omega)
        intro divides
        have even : 2 ∣ number := Nat.dvd_trans (Nat.dvd_mul_left 2 (2 ^ n)) divides
        omega
      case isFalse even =>
        have half : number = 2 * (number / 2) := by omega
        rw [Nat.succ_le_succ_iff, ← ih (Nat.le_of_succ_le_succ few), Nat.pow_succ']
        constructor
        · intro divides
          rw [half] at divides
          exact Nat.dvd_of_mul_dvd_mul_left Nat.two_pos divides
        · intro divides
          rw [half]
          exact Nat.mul_dvd_mul_left 2 divides

end Zeros

section Cover

/-- The exponent of the largest aligned block that starts here and fits. -/
def largestSize (bits last first : Nat) : Nat :=
  min (countRighthandZeroBits first bits) (last - first + 1).log2

variable {bits last first n : Nat}

theorem le_largestSize (few : n ≤ bits) (before : first ≤ last) :
    n ≤ largestSize bits last first ↔ 2 ^ n ∣ first ∧ first + 2 ^ n ≤ last + 1 := by
  unfold largestSize
  rw [Nat.le_min, ← pow_dvd_iff few, Nat.le_log2 (Nat.succ_ne_zero _)]
  refine and_congr_right fun _ => ?_
  omega

theorem largestSize_le : largestSize bits last first ≤ bits :=
  Nat.le_trans (Nat.min_le_left _ _) countRighthandZeroBits_le

/-- The blocks from a number to the last one, each as large as possible. -/
def cover (bits last first : Nat) : List Block :=
  if first ≤ last then
    ⟨first, largestSize bits last first⟩ :: cover bits last (first + 2 ^ largestSize bits last first)
  else []
termination_by last + 1 - first
decreasing_by
  have positive := Nat.two_pow_pos (largestSize bits last first)
  omega

/-- What the blocks of a cover are. -/
structure Covers (bits last first : Nat) (blocks : List Block) : Prop where
  exact : ∀ x, (∃ b ∈ blocks, x ∈ b) ↔ first ≤ x ∧ x ≤ last
  largest : ∀ b ∈ blocks, b.start ≤ last ∧ b.size = largestSize bits last b.start
  ordered : blocks.Pairwise fun b c => b.start + 2 ^ b.size ≤ c.start

theorem cover_covers (bits last first : Nat) : Covers bits last first (cover bits last first) := by
  fun_induction cover bits last first with
  | case1 first before ih =>
    have few : largestSize bits last first ≤ bits := largestSize_le
    obtain ⟨-, fits⟩ := (le_largestSize few before).mp (Nat.le_refl _)
    have positive := Nat.two_pow_pos (largestSize bits last first)
    refine ⟨?_, ?_, ?_⟩
    · intro x
      rw [List.exists_mem_cons_iff, ih.exact, Block.mem_iff]
      dsimp only
      omega
    · exact List.forall_mem_cons.mpr ⟨⟨before, rfl⟩, ih.largest⟩
    · refine List.pairwise_cons.mpr ⟨?_, ih.ordered⟩
      intro b listed
      exact ((ih.exact b.start).mp ⟨b, listed, Block.start_mem⟩).1
  | case2 first after =>
    refine ⟨?_, List.forall_mem_nil _, List.Pairwise.nil⟩
    intro x
    simp only [List.not_mem_nil, false_and, exists_false, false_iff]
    omega

variable {blocks : List Block} {b c block : Block} {x : Nat}

theorem Covers.aligned (covers : Covers bits last first blocks) (listed : b ∈ blocks) :
    b.Aligned ∧ b.size ≤ bits ∧ b.start + 2 ^ b.size ≤ last + 1 := by
  obtain ⟨before, size⟩ := covers.largest b listed
  have few : b.size ≤ bits := size ▸ largestSize_le
  obtain ⟨aligned, fits⟩ := (le_largestSize few before).mp (Nat.le_of_eq size)
  exact ⟨aligned, few, fits⟩

/-- The blocks of a cover have nothing in common. -/
theorem Covers.disjoint (covers : Covers bits last first blocks) (listed : b ∈ blocks) (listed' : c ∈ blocks)
    (inside : x ∈ b) (inside' : x ∈ c) : b = c := by
  by_contra differ
  have apart : b.start + 2 ^ b.size ≤ c.start ∨ c.start + 2 ^ c.size ≤ b.start := by
    have either : Std.Symm fun b c : Block => b.start + 2 ^ b.size ≤ c.start ∨ c.start + 2 ^ c.size ≤ b.start :=
      ⟨fun _ _ => Or.symm⟩
    have pairs : blocks.Pairwise fun b c =>
        b.start + 2 ^ b.size ≤ c.start ∨ c.start + 2 ^ c.size ≤ b.start := covers.ordered.imp Or.inl
    exact pairs.forall listed listed' differ
  rw [Block.mem_iff] at inside inside'
  omega

/-- An aligned block in the range lies in one block of the cover. -/
theorem Covers.within (covers : Covers bits last first blocks) (aligned : block.Aligned)
    (few : block.size ≤ bits) (low : first ≤ block.start) (high : block.start + 2 ^ block.size ≤ last + 1) :
    ∃ b ∈ blocks, ∀ x ∈ block, x ∈ b := by
  have positive := Nat.two_pow_pos block.size
  obtain ⟨b, listed, inside⟩ := (covers.exact block.start).mpr ⟨low, by omega⟩
  obtain ⟨aligned', -, -⟩ := covers.aligned listed
  refine ⟨b, listed, ?_⟩
  cases Nat.le_total block.size b.size with
  | inl smaller => exact Block.nested aligned aligned' smaller Block.start_mem inside
  | inr larger =>
    -- then it starts where the block of the cover starts, which is the largest that fits there
    have back := Block.nested aligned' aligned larger inside Block.start_mem b.start Block.start_mem
    have same : block.start = b.start := Nat.le_antisymm back.1 inside.1
    obtain ⟨before, size⟩ := covers.largest b listed
    have sizes : block.size ≤ b.size := by
      rw [size]
      exact (le_largestSize few before).mpr ⟨same ▸ aligned, same ▸ high⟩
    exact Block.nested aligned aligned' sizes Block.start_mem inside

/-- So no aligned block in the range has the starts of two blocks of the cover. -/
theorem Covers.separate (covers : Covers bits last first blocks) (aligned : block.Aligned)
    (few : block.size ≤ bits) (low : first ≤ block.start) (high : block.start + 2 ^ block.size ≤ last + 1)
    (listed : b ∈ blocks) (listed' : c ∈ blocks) (inside : b.start ∈ block) (inside' : c.start ∈ block) :
    b = c := by
  obtain ⟨large, among, within⟩ := covers.within aligned few low high
  have first_one := covers.disjoint listed among Block.start_mem (within _ inside)
  have other_one := covers.disjoint listed' among Block.start_mem (within _ inside')
  exact first_one.trans other_one.symm

end Cover

/-- Where each of some elements hits one of the others, and no two of them the same, there are no more of them. -/
theorem length_le_of_separated {α β : Type} (hits : α → β → Prop) {xs : List α} {ys : List β}
    (each : ∀ x ∈ xs, ∃ y ∈ ys, hits x y)
    (separated : xs.Pairwise fun x x' => ∀ y ∈ ys, hits x y → ¬ hits x' y) : xs.length ≤ ys.length := by
  classical
  induction xs generalizing ys with
  | nil => exact Nat.zero_le _
  | cons x rest ih =>
    obtain ⟨first, others⟩ := List.forall_mem_cons.mp each
    obtain ⟨y, listed, hit⟩ := first
    obtain ⟨apart, separated⟩ := List.pairwise_cons.mp separated
    have fewer : rest.length ≤ (ys.erase y).length := by
      apply ih
      · intro x' among
        obtain ⟨y', listed', hit'⟩ := others x' among
        have differ : y' ≠ y := fun same => apart x' among y listed hit (same ▸ hit')
        exact ⟨y', (List.mem_erase_of_ne differ).mpr listed', hit'⟩
      · exact separated.imp fun clear y' left => clear y' (List.mem_of_mem_erase left)
    have one := List.length_erase_of_mem listed
    have positive := List.length_pos_of_mem listed
    rw [List.length_cons]
    omega

end Nca.Lib.AlignedBlocks
