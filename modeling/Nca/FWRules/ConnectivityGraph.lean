import Mathlib.Data.Finset.Image
import Mathlib.Data.Finset.Prod
import Mathlib.Data.Finset.Card
import Mathlib.Data.List.MinMax
import Nca.Lib.Loops

/-!
The nodes and the edges of the drawn graph, as `ConnectivityGraph` hands them from one pass to the
next.
-/

namespace Nca.FWRules

/-- The name of a peer, or of a node that a pass adds, with the name of its namespace. -/
structure Node where
  name : String
  nc_name : String
  deriving DecidableEq, Repr

abbrev Edge := Node × Node

end Nca.FWRules
