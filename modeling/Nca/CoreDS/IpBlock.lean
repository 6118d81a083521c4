import Nca.CoreDS.PeerDomains
import Nca.CoreDS.PlacedIntervals
import Mathlib.Algebra.Group.Nat.Defs

/-!
IP blocks: sets of intervals of IPv4 and IPv6 addresses, in one order. A step past the last or the
first address of a family stays where it is. On the line of the indices of peers the two families
lie apart, so the sets of intervals follow those of indices.
-/

namespace Nca.CoreDS
open Lib Python BasePeerSet

inductive IpVersion where
  | v4
  | v6
  deriving DecidableEq, Repr

namespace IpVersion

def number : IpVersion → Nat
  | v4 => 4
  | v6 => 6

/-- The number of bits of an address. -/
def width : IpVersion → Nat
  | v4 => 32
  | v6 => 128

end IpVersion

structure IPNetworkAddress where
  version : IpVersion
  address : Nat
  bound : address < 2 ^ version.width
  deriving DecidableEq

namespace IPNetworkAddress

def le (self other : IPNetworkAddress) : Prop :=
  if self.version = other.version then self.address ≤ other.address
  else self.version.number < other.version.number

def lt (self other : IPNetworkAddress) : Prop :=
  if self.version = other.version then self.address < other.address
  else self.version.number < other.version.number

/-- `IPNetworkAddress.__add__`; an address out of range raises an error that is caught. -/
def add (self : IPNetworkAddress) (other : Int) : IPNetworkAddress :=
  if range : 0 ≤ self.address + other ∧ (self.address + other).toNat < 2 ^ self.version.width then
    ⟨self.version, (self.address + other).toNat, range.2⟩
  else self

def sub (self : IPNetworkAddress) (other : Int) : IPNetworkAddress :=
  if range : 0 ≤ self.address - other ∧ (self.address - other).toNat < 2 ^ self.version.width then
    ⟨self.version, (self.address - other).toNat, range.2⟩
  else self

/-- The index of an address among all peers. -/
def index (self : IPNetworkAddress) : Int :=
  match self.version with
  | .v4 => min_ipv4_index + self.address
  | .v6 => min_ipv6_index + self.address

variable {a b : IPNetworkAddress}

theorem ext_iff : a = b ↔ a.version = b.version ∧ a.address = b.address := by
  cases a
  cases b
  simp

theorem index_v4 (four : a.version = .v4) : a.index = a.address ∧ a.address ≤ 4294967295 := by
  obtain ⟨version, address, bound⟩ := a
  cases four
  have small : address < 2 ^ 32 := bound
  constructor
  · show (0 : Int) + address = address
    omega
  · show address ≤ 4294967295
    omega

theorem index_v6 (six : a.version = .v6) : a.index = 4294967300 + a.address ∧
    a.address ≤ 340282366920938463463374607431768211455 := by
  obtain ⟨version, address, bound⟩ := a
  cases six
  have small : address < 2 ^ 128 := bound
  constructor
  · rfl
  · show address ≤ 340282366920938463463374607431768211455
    omega

theorem index_lt : a.index < b.index ↔ a.lt b := by
  unfold lt
  cases first : a.version with
  | v4 =>
    have low := index_v4 first
    cases second : b.version with
    | v4 =>
      have high := index_v4 second
      rw [if_pos rfl]
      omega
    | v6 =>
      have high := index_v6 second
      apply iff_of_true
      · omega
      · simp [IpVersion.number]
  | v6 =>
    have high := index_v6 first
    cases second : b.version with
    | v4 =>
      have low := index_v4 second
      apply iff_of_false
      · omega
      · simp [IpVersion.number]
    | v6 =>
      have high := index_v6 second
      rw [if_pos rfl]
      omega

theorem index_le : a.index ≤ b.index ↔ a.le b := by
  have swap : a.le b ↔ ¬ b.lt a := by
    unfold le lt
    cases a.version with
    | v4 =>
      cases b.version with
      | v4 => exact Nat.not_lt.symm
      | v6 => simp [IpVersion.number]
    | v6 =>
      cases b.version with
      | v4 => simp [IpVersion.number]
      | v6 => exact Nat.not_lt.symm
  rw [swap, ← index_lt]
  omega

theorem index_inj (same : a.index = b.index) : a = b := by
  apply ext_iff.mpr
  cases first : a.version with
  | v4 =>
    have low := index_v4 first
    cases second : b.version with
    | v4 =>
      have high := index_v4 second
      exact ⟨rfl, by omega⟩
    | v6 =>
      have high := index_v6 second
      omega
  | v6 =>
    have high := index_v6 first
    cases second : b.version with
    | v4 =>
      have low := index_v4 second
      omega
    | v6 =>
      have high := index_v6 second
      exact ⟨rfl, by omega⟩

instance : DecidableRel le := fun a b => inferInstanceAs (Decidable
  (if a.version = b.version then a.address ≤ b.address else a.version.number < b.version.number))

instance : Endpoint IPNetworkAddress where
  le := le
  lt := lt
  le_refl _ := index_le.mp (Int.le_refl _)
  le_trans _ _ _ first second := index_le.mp (Int.le_trans (index_le.mpr first) (index_le.mpr second))
  lt_iff_le_not_ge a b := by
    rw [← index_lt, ← index_le, ← index_le]
    omega
  le_antisymm _ _ first second :=
    index_inj (Int.le_antisymm (index_le.mpr first) (index_le.mpr second))
  le_total _ _ := (Int.le_total _ _).imp index_le.mp index_le.mp
  toDecidableLE := inferInstanceAs (DecidableRel le)
  plusOne a := a.add 1
  minusOne a := a.sub 1

theorem index_add {other : Int} (next : b.index = a.index + other) (same : a.version = b.version) :
    a.add other = b := by
  have range : 0 ≤ a.address + other ∧ (a.address + other).toNat = b.address := by
    unfold index at next
    rw [same] at next
    cases second : b.version with
    | v4 =>
      simp only [second] at next
      omega
    | v6 =>
      simp only [second] at next
      omega
  unfold add
  have bound := b.bound
  rw [dif_pos ⟨range.1, by rw [range.2, same]; exact bound⟩]
  exact ext_iff.mpr ⟨same, range.2⟩

/-- The range that the constructor of addresses checks. -/
def InRange (a : IPNetworkAddress) (other : Int) : Prop :=
  0 ≤ a.address + other ∧ (a.address + other).toNat < 2 ^ a.version.width

theorem index_shift {other : Int} (range : a.InRange other) :
    (a.add other).index = a.index + other := by
  have added : a.add other = ⟨a.version, (a.address + other).toNat, range.2⟩ := dif_pos range
  have low : 0 ≤ a.address + other := range.1
  rw [added]
  unfold index
  dsimp only
  cases a.version with
  | v4 =>
    dsimp only
    omega
  | v6 =>
    dsimp only
    omega

theorem add_or (a : IPNetworkAddress) (other : Int) :
    (a.add other).index = a.index + other ∨ a.add other = a := by
  by_cases range : a.InRange other
  · exact Or.inl (index_shift range)
  · exact Or.inr (dif_neg range)

theorem sub_eq (a : IPNetworkAddress) (other : Int) : a.sub other = a.add (-other) := by
  unfold sub add
  simp only [Int.sub_eq_add_neg]

/-- Neighbours on the line of indices are of one family. -/
theorem version_of_neighbours (low : a.index - 1 ≤ b.index) (high : b.index ≤ a.index + 1) :
    a.version = b.version := by
  cases first : a.version with
  | v4 =>
    have four := index_v4 first
    cases second : b.version with
    | v4 => rfl
    | v6 =>
      have six := index_v6 second
      omega
  | v6 =>
    have six := index_v6 first
    cases second : b.version with
    | v4 =>
      have four := index_v4 second
      omega
    | v6 => rfl

instance : PlacedEndpoint IPNetworkAddress where
  place := index
  place_lt _ _ := index_lt
  plusOne_next _ _ next := index_add next (version_of_neighbours (by omega) (by omega))
  plusOne_last a last := (add_or a 1).resolve_left (last _)
  minusOne_next a b next := by
    rw [show minusOne a = a.add (-1) from sub_eq a 1]
    exact index_add next (version_of_neighbours (by omega) (by omega))
  minusOne_first a first := by
    rw [show minusOne a = a.add (-1) from sub_eq a 1]
    exact (add_or a (-1)).resolve_left (first _)

/-- An interval has no gap if and only if its ends are of one family. -/
theorem solid_iff {i : IntervalOf IPNetworkAddress} (proper : i.start ≤ i.end_) :
    i.Solid ↔ i.start.version = i.end_.version := by
  have order : i.start.index ≤ i.end_.index := place_le.mpr proper
  constructor
  · intro solid
    cases first : i.start.version with
    | v4 =>
      have four := index_v4 first
      cases second : i.end_.version with
      | v4 => rfl
      | v6 =>
        have six := index_v6 second
        -- no address has the first index of the gap between the families
        obtain ⟨a, here⟩ := solid 4294967296
          (show i.start.index ≤ 4294967296 ∧ 4294967296 ≤ i.end_.index by omega)
        have here : a.index = 4294967296 := here
        cases third : a.version with
        | v4 =>
          have four := index_v4 third
          omega
        | v6 =>
          have six := index_v6 third
          omega
    | v6 =>
      have six := index_v6 first
      cases second : i.end_.version with
      | v4 =>
        have four := index_v4 second
        omega
      | v6 => rfl
  · intro same n inside
    have inside : i.start.index ≤ n ∧ n ≤ i.end_.index := inside
    have range : i.start.InRange (n - i.start.index) := by
      have top := i.end_.bound
      rw [← same] at top
      unfold index at inside
      rw [← same] at inside
      unfold InRange index
      cases first : i.start.version with
      | v4 =>
        simp only [first] at inside top ⊢
        omega
      | v6 =>
        simp only [first] at inside top ⊢
        omega
    have reached := index_shift range
    exact ⟨i.start.add (n - i.start.index), show index _ = n by omega⟩

end IPNetworkAddress

/-- What `ip_network` makes of the text of a CIDR: an address of the network and the number of bits
that its addresses share. -/
structure IpNetwork where
  version : IpVersion
  address : Nat
  bound : address < 2 ^ version.width
  prefixlen : Nat
  prefix_le : prefixlen ≤ version.width

namespace IpNetwork

/-- The number of addresses of the network. -/
def num_addresses (n : IpNetwork) : Nat := 2 ^ (n.version.width - n.prefixlen)

theorem num_addresses_dvd (n : IpNetwork) : n.num_addresses ∣ 2 ^ n.version.width :=
  Nat.pow_dvd_pow 2 (Nat.sub_le _ _)

def network_address (n : IpNetwork) : IPNetworkAddress where
  version := n.version
  address := n.address / n.num_addresses * n.num_addresses
  bound := Nat.lt_of_le_of_lt (Nat.div_mul_le_self _ _) n.bound

def broadcast_address (n : IpNetwork) : IPNetworkAddress where
  version := n.version
  address := n.address / n.num_addresses * n.num_addresses + (n.num_addresses - 1)
  bound := by
    obtain ⟨blocks, whole⟩ := n.num_addresses_dvd
    have some : 0 < n.num_addresses := Nat.two_pow_pos _
    have inside : n.address / n.num_addresses < blocks := by
      apply Nat.div_lt_of_lt_mul
      rw [← whole]
      exact n.bound
    have fits := Nat.mul_le_mul_left n.num_addresses inside
    rw [whole]
    rw [Nat.mul_succ, Nat.mul_comm] at fits
    omega

instance : Membership IPNetworkAddress IpNetwork :=
  ⟨fun n a => a.version = n.version ∧ a.address / n.num_addresses = n.address / n.num_addresses⟩

def interval (n : IpNetwork) : IntervalOf IPNetworkAddress := ⟨n.network_address, n.broadcast_address⟩

variable {n : IpNetwork} {a : IPNetworkAddress}

theorem interval_proper : n.interval.start ≤ n.interval.end_ := by
  show n.network_address.le n.broadcast_address
  unfold IPNetworkAddress.le
  rw [if_pos (show n.network_address.version = n.broadcast_address.version from rfl)]
  exact Nat.le_add_right _ _

theorem interval_solid : n.interval.Solid := (IPNetworkAddress.solid_iff interval_proper).mpr rfl

theorem mem_interval : a ∈ n.interval ↔ a ∈ n := by
  have some : 0 < n.num_addresses := Nat.two_pow_pos _
  show n.network_address.le a ∧ a.le n.broadcast_address ↔ a.version = n.version ∧ _
  unfold IPNetworkAddress.le
  by_cases same : a.version = n.version
  · rw [if_pos (show n.network_address.version = a.version from same.symm), if_pos
      (show a.version = n.broadcast_address.version from same), and_iff_right same,
      Nat.div_eq_iff some, Nat.add_sub_assoc some]
    rfl
  · have other : n.network_address.version ≠ a.version := fun h => same h.symm
    have other' : a.version ≠ n.broadcast_address.version := same
    rw [if_neg other, if_neg other']
    apply iff_of_false
    · intro ⟨below, above⟩
      exact absurd (Nat.lt_trans below above) (Nat.lt_irrefl _)
    · exact fun inside => same inside.1

end IpNetwork

abbrev IpBlock := CanonicalIntervalSetOf IPNetworkAddress

namespace IpBlock
open CanonicalIntervalSetOf

/-- The loop of `add_cidr` over the exceptions. The flag says that `subnet_of` raised a `TypeError`,
as it does for networks of different families. -/
def addExceptions (ipn : IpNetwork) : IpBlock → List IpNetwork → IpBlock × Bool
  | self, [] => (self, false)
  | self, exception_n :: rest =>
    if exception_n.version ≠ ipn.version then (self, true)
    else addExceptions ipn (self.addHole exception_n.interval) rest

/-- `IpBlock.add_cidr`, with the block as it is left, and whether an error was raised. -/
def addCidr (self : IpBlock) (cidr : IpNetwork) (exceptions : List IpNetwork) :
    Except Failure (IpBlock × Bool) := do
  let self ← self.addInterval cidr.interval
  pure (addExceptions cidr self exceptions)

def removeCidr (self : IpBlock) (cidr : IpNetwork) : IpBlock := self.addHole cidr.interval

/-- The exceptions that are made: all of them up to the first of the other family. -/
def exceptionsMade (cidr : IpNetwork) (exceptions : List IpNetwork) : List IpNetwork :=
  exceptions.takeWhile fun exception_n => decide (exception_n.version = cidr.version)

variable {self : IpBlock} {A B : Set IPNetworkAddress} {cidr : IpNetwork} {exceptions : List IpNetwork}

theorem addExceptions_raises :
    (addExceptions cidr self exceptions).2 = true ↔ ∃ e ∈ exceptions, e.version ≠ cidr.version := by
  induction exceptions generalizing self with
  | nil => simp [addExceptions]
  | cons e rest ih =>
    unfold addExceptions
    rw [List.exists_mem_cons_iff]
    split
    · rename_i other
      exact iff_of_true rfl (Or.inl other)
    · rename_i same
      rw [ih]
      exact (or_iff_right same).symm

theorem holds_removeCidr (holds : Holds self A) : Holds (removeCidr self cidr) (A \ {a | a ∈ cidr}) := by
  have hole := holds_addHole holds cidr.interval_proper
  unfold removeCidr
  simpa only [IpNetwork.mem_interval] using hole

theorem holds_addExceptions (holds : Holds self A) :
    Holds (addExceptions cidr self exceptions).1
      (A \ {a | ∃ e ∈ exceptionsMade cidr exceptions, a ∈ e}) := by
  induction exceptions generalizing self A with
  | nil => simpa [exceptionsMade, addExceptions] using holds
  | cons e rest ih =>
    unfold addExceptions exceptionsMade
    by_cases same : e.version = cidr.version
    · rw [if_neg (not_not.mpr same), List.takeWhile_cons_of_pos (by simpa using same)]
      have first : Holds (removeCidr self e) (A \ {a | a ∈ e}) := holds_removeCidr holds
      have made := ih first
      rw [Set.sdiff_sdiff] at made
      unfold removeCidr exceptionsMade at made
      simpa only [List.mem_cons, exists_eq_or_imp, Set.ofPred_or] using made
    · rw [if_pos same, List.takeWhile_cons_of_neg (by simpa using same)]
      simpa using holds

theorem holds_addCidr (holds : Holds self A) : Returns (addCidr self cidr exceptions) fun r =>
    Holds r.1 ((A ∪ {a | a ∈ cidr}) \ {a | ∃ e ∈ exceptionsMade cidr exceptions, a ∈ e}) := by
  apply returns_bind (holds_addInterval holds cidr.interval_proper cidr.interval_solid)
  intro r added
  simp only [IpNetwork.mem_interval] at added
  exact returns_pure (holds_addExceptions added)

/-- The intervals follow each other with an address, or the border of the families, in between. -/
def Apart (i j : IntervalOf IPNetworkAddress) : Prop :=
  i.end_ < j.start ∧ (i.end_.version = j.start.version → i.end_.address + 1 < j.start.address)

structure WellFormed (s : IpBlock) : Prop where
  proper : ∀ i ∈ s.interval_set, i.start ≤ i.end_
  one_family : ∀ i ∈ s.interval_set, i.start.version = i.end_.version
  sorted : s.interval_set.Pairwise Apart
  families : s.interval_set.Pairwise fun i j => i.start.version.number ≤ j.start.version.number

theorem holds_wellFormed (holds : Holds self A) : WellFormed self := by
  have proper := holds_proper holds
  have one_family : ∀ i ∈ self.interval_set, i.start.version = i.end_.version :=
    fun i listed => (IPNetworkAddress.solid_iff (proper i listed)).mp (holds_solid holds i listed)
  have sorted : self.interval_set.Pairwise fun i j => i.end_.index + 1 < j.start.index :=
    List.pairwise_map.mp holds.1.sorted
  have apart : ∀ i j : IntervalOf IPNetworkAddress, i.end_.index + 1 < j.start.index → Apart i j := by
    intro i j before
    apply And.intro (IPNetworkAddress.index_lt.mp (by omega))
    intro same
    unfold IPNetworkAddress.index at before
    rw [same] at before
    cases second : j.start.version with
    | v4 =>
      simp only [second] at before
      omega
    | v6 =>
      simp only [second] at before
      omega
  refine ⟨proper, one_family, sorted.imp (apart _ _), sorted.imp_of_mem ?_⟩
  intro i j listed _ before
  rw [one_family i listed]
  have below : i.end_.lt j.start := IPNetworkAddress.index_lt.mp (by omega)
  unfold IPNetworkAddress.lt at below
  split at below
  · rename_i same
    exact Nat.le_of_eq (congrArg _ same)
  · exact Nat.le_of_lt below

theorem wellFormed_holds (wellFormed : WellFormed self) : Holds self {a | a ∈ self} := by
  have solid : ∀ i ∈ self.interval_set, i.Solid := fun i listed =>
    (IPNetworkAddress.solid_iff (wellFormed.proper i listed)).mpr (wellFormed.one_family i listed)
  refine ⟨⟨?_, ?_⟩, ?_⟩
  · intro _ among
    obtain ⟨i, listed, rfl⟩ := List.mem_map.mp among
    exact place_le.mpr (wellFormed.proper i listed)
  · apply List.pairwise_map.mpr
    apply wellFormed.sorted.imp
    intro i j ⟨below, apart⟩
    show i.end_.index + 1 < j.start.index
    have below : i.end_.index < j.start.index := place_lt.mpr below
    by_contra touching
    have same := @IPNetworkAddress.version_of_neighbours i.end_ j.start (by omega) (by omega)
    have gap := apart same
    unfold IPNetworkAddress.index at below touching
    rw [same] at below touching
    cases second : j.start.version with
    | v4 =>
      simp only [second] at below touching
      omega
    | v6 =>
      simp only [second] at below touching
      omega
  · intro n
    constructor
    · intro ⟨_, among, inside⟩
      obtain ⟨i, listed, rfl⟩ := List.mem_map.mp among
      obtain ⟨a, rfl⟩ := solid i listed n inside
      exact ⟨a, ⟨i, listed, IntervalOf.mem_places.mp inside⟩, rfl⟩
    · intro ⟨a, inside, here⟩
      rw [← here]
      exact mem_places.mpr inside

section Runs

variable {V : Type} [DecidableEq V]

/-- One operation of a program whose blocks are named by `V`. -/
inductive Cmd (V : Type) where
  | addCidr (self : V) (cidr : IpNetwork) (exceptions : List IpNetwork)
  | removeCidr (self : V) (cidr : IpNetwork)
  | and (result self other : V)
  | or (result self other : V)
  | sub (result self other : V)
  | iand (self other : V)
  | ior (self other : V)
  | isub (self other : V)

/-- After a `TypeError` of `add_cidr` the program goes on with the block as it was left. -/
def step (store : V → IpBlock) : Cmd V → Except Failure (V → IpBlock)
  | .addCidr v cidr exceptions => do
    let (block, _) ← addCidr (store v) cidr exceptions
    pure (Function.update store v block)
  | .removeCidr v cidr => pure (Function.update store v (removeCidr (store v) cidr))
  | .and u v w => pure (Function.update store u ((store v).and (store w)))
  | .or u v w => do pure (Function.update store u (← (store v).or (store w)))
  | .sub u v w => pure (Function.update store u ((store v).sub (store w)))
  | .iand v w => pure (Function.update store v ((store v).and (store w)))
  | .ior v w => do pure (Function.update store v (← (store v).or (store w)))
  | .isub v w => pure (Function.update store v ((store v).sub (store w)))

def run (cmds : List (Cmd V)) : Except Failure (V → IpBlock) := cmds.foldlM step fun _ => {}

/-- The same operation on sets of addresses. -/
def absStep (sets : V → Set IPNetworkAddress) : Cmd V → V → Set IPNetworkAddress
  | .addCidr v cidr exceptions => Function.update sets v
    ((sets v ∪ {a | a ∈ cidr}) \ {a | ∃ e ∈ exceptionsMade cidr exceptions, a ∈ e})
  | .removeCidr v cidr => Function.update sets v (sets v \ {a | a ∈ cidr})
  | .and u v w => Function.update sets u (sets v ∩ sets w)
  | .or u v w => Function.update sets u (sets v ∪ sets w)
  | .sub u v w => Function.update sets u (sets v \ sets w)
  | .iand v w => Function.update sets v (sets v ∩ sets w)
  | .ior v w => Function.update sets v (sets v ∪ sets w)
  | .isub v w => Function.update sets v (sets v \ sets w)

def absRun (cmds : List (Cmd V)) : V → Set IPNetworkAddress := cmds.foldl absStep fun _ => ∅

def StoreHolds (store : V → IpBlock) (sets : V → Set IPNetworkAddress) : Prop :=
  ∀ v, Holds (store v) (sets v)

variable {store : V → IpBlock} {sets : V → Set IPNetworkAddress}

theorem storeHolds_update (stored : StoreHolds store sets) (v : V) (new : Holds self A) :
    StoreHolds (Function.update store v self) (Function.update sets v A) := by
  intro w
  by_cases same : w = v
  · subst same
    simpa using new
  · simpa [same] using stored w

theorem step_holds (stored : StoreHolds store sets) (cmd : Cmd V) :
    Returns (step store cmd) (StoreHolds · (absStep sets cmd)) := by
  cases cmd with
  | addCidr v cidr exceptions =>
    apply returns_bind (holds_addCidr (stored v))
    exact fun r new => returns_pure (storeHolds_update stored v new)
  | removeCidr v cidr => exact returns_pure (storeHolds_update stored v (holds_removeCidr (stored v)))
  | and u v w => exact returns_pure (storeHolds_update stored u (holds_and (stored v) (stored w)))
  | or u v w =>
    apply returns_bind (holds_or (stored v) (stored w))
    exact fun r new => returns_pure (storeHolds_update stored u new)
  | sub u v w => exact returns_pure (storeHolds_update stored u (holds_sub (stored v) (stored w)))
  | iand v w => exact returns_pure (storeHolds_update stored v (holds_and (stored v) (stored w)))
  | ior v w =>
    apply returns_bind (holds_or (stored v) (stored w))
    exact fun r new => returns_pure (storeHolds_update stored v new)
  | isub v w => exact returns_pure (storeHolds_update stored v (holds_sub (stored v) (stored w)))

/-- Every run ends, and its blocks are well formed and have exactly the addresses of its sets. -/
theorem run_blocks (cmds : List (Cmd V)) : Returns (run cmds) fun store =>
    ∀ v, WellFormed (store v) ∧ ∀ a, a ∈ store v ↔ a ∈ absRun cmds v := by
  have follows : Returns (cmds.foldlM step fun _ => {}) (StoreHolds · (absRun cmds)) :=
    run_follows (fun _ _ cmd stored _ => step_holds stored cmd) (fun _ => holds_empty)
      (everyCmd_always fun _ _ => trivial)
  apply returns_mono follows
  exact fun store stored v => ⟨holds_wellFormed (stored v), fun _ => holds_mem (stored v)⟩

end Runs

end IpBlock
end Nca.CoreDS
