import ScriptModules.Host.Version

/-!
# Host capabilities

What a host can do, computed once from its version.
-/

namespace ScriptModules.Host

/-- Features of a host that change how modules are resolved and loaded. -/
structure Capabilities where
  /-- Names of built-in modules may carry a scheme. -/
  nodePrefix : Bool := true
  /-- The host loads modules in one step instead of two. -/
  loadHook : Bool := true
  /-- Source maps inside a comment are honoured. -/
  inlineSourceMaps : Bool := true
  deriving DecidableEq, Repr

/-- A requirement is only met by a release, never by a pre-release. -/
private def releasedSince (v : Version) (major minor patch : Nat) : Bool :=
  v.pre == "" && v.atLeast major minor patch

/-- What a host of the given version can do. -/
def Capabilities.ofVersion (v : Version) : Capabilities where
  nodePrefix :=
    releasedSince v 14 13 1 || (releasedSince v 12 20 0 && !v.atLeast 13 0 0)
  loadHook := releasedSince v 16 12 0
  inlineSourceMaps := releasedSince v 16 6 0

end ScriptModules.Host
