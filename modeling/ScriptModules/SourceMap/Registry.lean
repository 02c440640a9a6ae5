import ScriptModules.SourceMap.Basic

/-!
# Registered source maps

The map of each generated script, by its URL. A script that is generated again has only its
latest map.
-/

namespace ScriptModules.SourceMap

/-- The maps by URL. -/
structure Registry where
  entries : List (String × SourceMap) := []
  deriving DecidableEq, Repr

namespace Registry

/-- Register the map of a URL in place of an earlier one. -/
def set (url : String) (m : SourceMap) (r : Registry) : Registry :=
  ⟨(url, m) :: r.entries.filter (·.1 != url)⟩

/-- The map of a URL. -/
def get? (url : String) (r : Registry) : Option SourceMap := r.entries.lookup url

/-- How many URLs have a map. -/
def size (r : Registry) : Nat := r.entries.length

/-- The origin of a place in the script of a URL. -/
def origin? (url : String) (line column : UInt32) (r : Registry) : Option Origin :=
  (r.get? url).bind (·.origin? line column)

end Registry

end ScriptModules.SourceMap
