import Nca.CoreDS.IntervalSearch
import Nca.Lib.ExactSet
import Nca.Lib.Dict

/-!
Dimensions of a hypercube space: their types and domains, and the values a cube takes in one
dimension. A dimension holds either an interval set or a DFA; a DFA is an exact set of words.
-/

namespace Nca.CoreDS
open Lib Python

/-- A coordinate of a point. -/
inductive Item where
  | int (n : Int)
  | str (s : String)
  deriving DecidableEq, Repr

inductive DimensionType where
  | IntervalSet
  | DFA
  deriving DecidableEq, Repr

/-- A key of `layers`: a CanonicalIntervalSet or a MinDFA. -/
inductive LayerElem (L : Type) where
  | intervals (s : CanonicalIntervalSet)
  | dfa (l : L)

variable {L : Type} [ExactSet L String]

namespace LayerElem

instance : DecidableEq (LayerElem L)
  | intervals s, intervals t =>
    if h : s = t then isTrue (congrArg _ h) else isFalse fun e => h (intervals.inj e)
  | dfa l, dfa m =>
    if h : l = m then isTrue (congrArg _ h) else isFalse fun e => h (dfa.inj e)
  | intervals _, dfa _ => isFalse nofun
  | dfa _, intervals _ => isFalse nofun

def type : LayerElem L → DimensionType
  | intervals _ => .IntervalSet
  | dfa _ => .DFA

def bool : LayerElem L → Bool
  | intervals s => s.bool
  | dfa l => ExactSet.bool l

def and : LayerElem L → LayerElem L → Except Failure (LayerElem L)
  | intervals s, intervals t => pure (intervals (s.and t))
  | dfa l, dfa m => pure (dfa (l ∩ m))
  | _, _ => .error .attribute

def or : LayerElem L → LayerElem L → Except Failure (LayerElem L)
  | intervals s, intervals t => do pure (intervals (← s.or t))
  | dfa l, dfa m => pure (dfa (l ∪ m))
  | _, _ => .error .attribute

def sub : LayerElem L → LayerElem L → Except Failure (LayerElem L)
  | intervals s, intervals t => pure (intervals (s.sub t))
  | dfa l, dfa m => pure (dfa (l \ m))
  | _, _ => .error .attribute

def containedIn : LayerElem L → LayerElem L → Except Failure Bool
  | intervals s, intervals t => s.containedIn t
  | dfa l, dfa m => pure (!ExactSet.bool (l \ m))
  | _, _ => .error .attribute

/-- `is_dfa_wll_words`. -/
def isDfaAllWords : LayerElem L → LayerElem L → Except Failure Bool
  | dfa l, dfa all_words_dfa => pure (decide (l = all_words_dfa))
  | _, _ => .error .attribute

/-- `item in layer_elem`. -/
def contains : LayerElem L → Item → Except Failure Bool
  | intervals s, .int n => s.contains n
  | dfa l, .str w => pure (decide (w ∈ l))
  | _, _ => .error .attribute

/-- The values of the dimension that the key admits. -/
def Mem : LayerElem L → Item → Prop
  | intervals s, .int n => n ∈ s
  | dfa l, .str w => w ∈ l
  | _, _ => False

instance : Membership Item (LayerElem L) := ⟨Mem⟩

/-- The intervals of the key are sorted and apart. -/
def Canonical : LayerElem L → Prop
  | intervals s => s.Canonical
  | dfa _ => True

end LayerElem

/-- `dim_dict`, without the empty values, which the hypercube sets never ask for. -/
structure DimensionsManager (L : Type) where
  dim_dict : List (String × DimensionType × LayerElem L)

namespace DimensionsManager

def getDimensionTypeByName (self : DimensionsManager L) (dim_name : String) :
    Except Failure DimensionType :=
  match Dict.get self.dim_dict dim_name with
  | some entry => .ok entry.1
  | none => .error .key

def getDimensionDomainByName (self : DimensionsManager L) (dim_name : String) :
    Except Failure (LayerElem L) :=
  match Dict.get self.dim_dict dim_name with
  | some entry => .ok entry.2
  | none => .error .key

end DimensionsManager

/-- The ordered dimension names of a family of hypercube sets, each known to the manager with a
domain of its type that has an element. -/
structure Space (L : Type) [ExactSet L String] where
  manager : DimensionsManager L
  all_dimensions_list : List String
  nodup : all_dimensions_list.Nodup
  some_dimension : all_dimensions_list ≠ []
  domains : ∀ d ∈ all_dimensions_list, ∃ entry, Dict.get manager.dim_dict d = some entry ∧
    entry.2.type = entry.1 ∧ entry.2.Canonical ∧ ∃ x, x ∈ entry.2

end Nca.CoreDS
