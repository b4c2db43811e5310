import ApiContract.Text.LowerCase

/-!
# Keys of routes

A route is known by its path, with the names of its parameters in braces, and its method. Case does not
count.
-/

namespace ApiContract

/-- The key of a route, in lower case. -/
structure RouteKey where
  path : String
  method : String
deriving DecidableEq, Repr

namespace RouteKey

/-- The key of a path and a method, as written. -/
def of (path method : String) : RouteKey := ⟨lowerCase path, lowerCase method⟩

/-- Keys are ordered by path, then by method. -/
def precedes (a b : RouteKey) : Bool :=
  decide (a.path < b.path) || (a.path == b.path && decide (a.method < b.method))

end RouteKey

end ApiContract
