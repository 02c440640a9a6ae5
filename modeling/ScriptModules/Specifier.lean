import ScriptModules.Host.Capabilities
import ScriptModules.Url.Parser

/-!
# Specifiers

What a module is asked for by: a path, a URL, or the bare name of a package.
-/

namespace ScriptModules.Specifier

/-- The scheme of built-in modules. -/
def nodePrefix : String := "node:"

/-- A specifier without the scheme of built-in modules, for a host that does not know it. -/
def withoutNodePrefix (c : Host.Capabilities) (s : String) : String :=
  if c.nodePrefix then s else (Text.dropPrefix? nodePrefix s).getD s

/-- Relative and absolute paths, and URLs of files. -/
def isPath (s : String) : Bool :=
  ["file://", "./", "../", "/"].any (Text.startsWith · s) ||
    s == "." || s == ".."

/-- A specifier that is a URL. A scheme of one letter is a drive. -/
def hasScheme (s : String) : Bool :=
  s.toList.head? != some '#' && s.toList.head? != some '@' &&
    match Url.parse s with
    | .ok url => url.scheme.length > 1
    | .error _ => false

/-- Names of packages and mapped aliases. -/
def isBare (s : String) : Bool := !isPath s && !hasScheme s

/-- A slash at the end asks for a directory. -/
def isDirectory (s : String) : Bool := Text.endsWith "/" s

/-- Whether the importing module lies inside a vendored package. -/
def isVendored (parent? : Option Url) : Bool :=
  parent?.any fun url => Text.holds "/node_modules/".toList url.path.toList

/-- Compiled extensions and the extensions of sources tried in their place, in order. -/
def sourceExtensions : List (String × List String) :=
  [(".js", [".ts", ".tsx"]), (".jsx", [".tsx"]), (".mjs", [".mts"]), (".cjs", [".cts"])]

/-- The specifiers of sources that take priority over a compiled one. A query or fragment is
carried along, and an extension without a name has none. -/
def sourceAlternates (s : String) : List String :=
  let (path, rest) := s.toList.span fun c => c != '?' && c != '#'
  match sourceExtensions.find? fun (compiled, _) => compiled.toList.isSuffixOf path with
  | none => []
  | some (compiled, sources) =>
    let stem := path.take (path.length - compiled.length)
    if stem.isEmpty || stem.getLast? == some '/' then []
    else sources.map fun source => String.ofList (stem ++ source.toList ++ rest)

/-- The modules that the host provides. -/
def builtins : List String :=
  ["assert", "async_hooks", "buffer", "child_process", "cluster", "console", "constants", "crypto",
    "dgram", "diagnostics_channel", "dns", "domain", "events", "fs", "http", "http2", "https",
    "inspector", "module", "net", "os", "path", "perf_hooks", "process", "punycode",
    "querystring", "readline", "repl", "stream", "string_decoder", "sys", "timers", "tls",
    "trace_events", "tty", "url", "util", "v8", "vm", "wasi", "worker_threads", "zlib"]

/-- Whether a name, up to its first slash, is that of a built-in module. -/
def isBuiltin (name : String) : Bool :=
  builtins.contains (String.ofList (name.toList.takeWhile (· != '/')))

end ScriptModules.Specifier
