import Nca.Parsers.IstioVirtualServiceYamlParser

/-!
The generator of gateway policies: the connection cube of a route.
-/

namespace Nca.Parsers
open CoreDS Lib Resources

/-- The dimensions of the cube of a route; a dimension that is not set is full. -/
structure RouteCube (D : Type) where
  hosts : Option D := none
  paths : Option D := none
  methods : Option MethodSet := none

variable {E D : Type} [MinDFA D]

/-- The requests for a path with a method that lie in the cube. -/
def RouteCube.Admits (cube : RouteCube D) (path : Str) (method : HttpMethod) : Prop :=
  (∀ paths, cube.paths = some paths → path ∈ paths) ∧
  ∀ methods, cube.methods = some methods → method ∈ methods

def initRouteConnCube (route : Route E D) : RouteCube D where
  hosts := ifNonEmpty route.all_sni_hosts_dfa
  paths := ifNonEmpty route.uri_dfa
  methods := route.methods.filter (· ≠ ∅)

end Nca.Parsers
