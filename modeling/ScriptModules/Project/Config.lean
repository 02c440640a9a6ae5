import ScriptModules.Files.Tree
import ScriptModules.Project.Glob
import ScriptModules.Project.Jsonc

/-!
# Project configurations

A configuration extends others, maps names to paths, refers to further projects and tells which
files belong to it. What a configuration says wins over what it extends, setting by setting.
-/

namespace ScriptModules.Project

open Json (Value Members)

/-- Why a configuration cannot be had. -/
inductive Fault where
  | read (path : Path) (cause : Files.Fault)
  | parse (path : Path) (cause : Json.Fault)
  | glob (path : Path) (pattern : String) (cause : Glob.Cause)
  | circularExtends (path : Path)
  | extendsNotFound (extended : String) (path : Path)
  deriving DecidableEq, Repr

/-- The wording for a text that is no pattern. -/
def globFaultText (pattern : String) (cause : Glob.Cause) : String :=
  "error parsing glob '" ++ pattern ++ "': " ++ cause.text

/-- The wording of a fault. -/
def Fault.text : Fault → String
  | read path cause => "failed to read " ++ path.text ++ ": " ++ cause.text
  | parse path cause => "failed to parse " ++ path.text ++ ": " ++ cause.text
  | glob path pattern cause =>
    "invalid glob pattern in " ++ path.text ++ ": " ++ globFaultText pattern cause
  | circularExtends path => "circular \x22extends\x22 chain through " ++ path.text
  | extendsNotFound extended path =>
    "cannot find base config '" ++ extended ++ "' extended by " ++ path.text

/-- A substitution as it is written, and the directory that it starts from. -/
structure Substitution where
  template : String
  base : Path
  deriving DecidableEq, Repr

/-- A pattern of names, with at most its first star as a wildcard. -/
structure Mapping where
  pattern : String
  /-- What stands before the wildcard. -/
  front : String
  /-- What stands after the wildcard. -/
  back : String
  hasWildcard : Bool
  substitutions : List Substitution
  deriving DecidableEq, Repr

/-- The files that a configuration claims. -/
structure Scope where
  dir : Path
  files : List Path
  included : Option (List (List Glob.Token))
  excluded : List (List Glob.Token)
  deriving Repr

/-- A configuration with everything it extends merged in. -/
structure Config where
  path : Path
  dir : Path
  baseUrl : Option Path
  mappings : List Mapping
  compilerOptions : Members
  references : List Path
  scope : Scope
  deriving Repr

/-- A list of names along with the directory of the file that declares it. -/
structure Declared where
  names : List String
  dir : Path
  deriving DecidableEq, Repr

/-- What one file says, or several merged. -/
structure Layer where
  compilerOptions : Members := []
  baseUrl : Option Path := none
  mappings : Option (Members × Path) := none
  files : Option Declared := none
  included : Option Declared := none
  excluded : Option Declared := none
  deriving Repr

/-- One layer on top of another. -/
def Layer.overlay (below above : Layer) : Layer where
  compilerOptions :=
    above.compilerOptions.foldl (fun ms (k, v) => Members.insert k v ms) below.compilerOptions
  baseUrl := above.baseUrl.or below.baseUrl
  mappings := above.mappings.or below.mappings
  files := above.files.or below.files
  included := above.included.or below.included
  excluded := above.excluded.or below.excluded

/-- The directory of a file. -/
def dirOf (p : Path) : Path := p.parent?.getD ⟨"."⟩

/-- The texts in an array. -/
def textsOf (v : Value) : Option (List String) :=
  v.items?.map fun items => items.filterMap Value.string?

/-- What a file says on its own. -/
def ownLayer (json : Value) (path : Path) : Layer :=
  let dir := dirOf path
  let options := ((json.get? "compilerOptions").bind Value.members?).getD []
  let declared (key : String) : Option Declared :=
    ((json.get? key).bind textsOf).map fun names => ⟨names, dir⟩
  { compilerOptions := options
    baseUrl := ((options.get? "baseUrl").bind Value.string?).map fun url => (dir.join url).normalize
    mappings := ((options.get? "paths").bind Value.members?).map fun table => (table, dir)
    files := declared "files"
    included := declared "include"
    excluded := declared "exclude" }

/-- The configurations that a file extends, in order. -/
def extendedBy (json : Value) : List String :=
  match json.get? "extends" with
  | some (.string s) => [s]
  | some (.array items) => items.filterMap Value.string?
  | _ => []

/-- A path with `.json` at its end. -/
def withJson (p : Path) : Path := ⟨p.text ++ ".json"⟩

/-- Find an extended configuration: a path from the directory of the file, or one that a package
in a directory above provides. -/
def findExtended? (t : Files.Tree) (dir : Path) (extended : String) : Option Path :=
  let named := Text.endsWith ".json" extended
  if extended.toList.head? == some '.' || (Path.mk extended).isAbsolute then
    let candidate := (dir.join extended).normalize
    if t.isFile candidate then some candidate
    else if !named && t.isFile (withJson candidate) then some (withJson candidate)
    else none
  else
    (dir.ancestors.map fun above =>
      let package := (above.join "node_modules").join extended
      if named then package
      else if t.isDirectory package then package.join "tsconfig.json"
      else withJson package).find? t.isFile

/-- The value of a configuration text. -/
def parseText (path : Path) (content : String) : Except Fault Value :=
  (Jsonc.parse content).mapError (Fault.parse path)

/-- Read the value of a configuration file. -/
def readFile (t : Files.Tree) (path : Path) : Except Fault Value := do
  parseText path (← (t.readText path).mapError (Fault.read path))

/-- Merge the layers of extended configurations, each over those before it. -/
def extendAll (t : Files.Tree) (load : Path → Except Fault (Layer × Value)) (path : Path) :
    List String → Layer → Except Fault Layer
  | [], merged => .ok merged
  | extended :: rest, merged =>
    match findExtended? t (dirOf path) extended with
    | none => .error (.extendsNotFound extended path)
    | some base => do
      let (layer, _) ← load base
      extendAll t load path rest (merged.overlay layer)

/-- The layer of a file and everything it extends. -/
def layerOf (t : Files.Tree) (load : Path → Except Fault (Layer × Value)) (json : Value)
    (path : Path) : Except Fault Layer := do
  let below ← extendAll t load path (extendedBy json) {}
  return below.overlay (ownLayer json path)

/-- Read a file and merge what it extends, each with `load`. `chain` holds the files on the way,
none of which may be read again. -/
def loadStep (t : Files.Tree) (load : List Path → Path → Except Fault (Layer × Value))
    (chain : List Path) (path : Path) : Except Fault (Layer × Value) :=
  if chain.any (·.same path) then .error (.circularExtends path)
  else do
    let json ← readFile t path
    let layer ← layerOf t (load (path :: chain)) json path
    return (layer, json)

/-- Read a file and everything it extends, with at most `limit` files on a way. -/
def loadWithin (t : Files.Tree) : Nat → List Path → Path → Except Fault (Layer × Value)
  | 0, _, path => .error (.circularExtends path)
  | limit + 1, chain, path => loadStep t (loadWithin t limit) chain path

/-- There are fewer texts than this of at most so many bytes. -/
@[irreducible]
def textBound (bytes : Nat) : Nat := Nat.pow 256 (bytes + 1)

/-- No more paths than this can be read, so no way through the files is longer. -/
def wayLimit : Nat := textBound Files.Tree.longestPath

/-- Read a file and everything it extends, where `chain` holds the files on the way. -/
def loadLayer (t : Files.Tree) : List Path → Path → Except Fault (Layer × Value) :=
  loadWithin t wayLimit

/-- A mapping from its pattern and targets. -/
def mappingOf (base : Path) (pattern : String) (targets : List String) : Mapping :=
  let cs := pattern.toList
  let front := cs.takeWhile (· != '*')
  { pattern := pattern
    front := String.ofList front
    back := String.ofList (cs.drop (front.length + 1))
    hasWildcard := cs.contains '*'
    substitutions := targets.map fun target => ⟨target, base⟩ }

/-- The mappings of a table. Entries that are no arrays are left out. -/
def mappingsOf (table : Members) (base : Path) : List Mapping :=
  table.filterMap fun (pattern, targets) => (textsOf targets).map (mappingOf base pattern)

/-- A reference names a configuration, or the directory of one. -/
def referencePath (dir : Path) (reference : String) : Path :=
  let target := (dir.join reference).normalize
  if target.extension? == some "json" then target else target.join "tsconfig.json"

/-- The references of a configuration. -/
def referencesOf (json : Value) (dir : Path) : List Path :=
  (((json.get? "references").bind Value.items?).getD []).filterMap fun r =>
    ((r.get? "path").bind Value.string?).map (referencePath dir)

/-- A pattern as it is matched against paths below the directory of the configuration. A pattern
that names a directory covers everything in it. -/
def expandPattern (configDir declaredIn : Path) (covering : String) (pattern : String) : String :=
  let absolute := (declaredIn.join pattern).normalize
  let relative := ((absolute.below? configDir).getD absolute).text
  let cs := relative.toList.map fun c => if c == '\\' then '/' else c
  let cs := (cs.reverse.dropWhile (· == '/')).reverse
  let text := String.ofList cs
  if cs.isEmpty then "**/*"
  else if Text.endsWith "**" text then text ++ "/*"
  else if !cs.contains '*' && (Path.mk text).extension?.isNone then text ++ covering
  else text

/-- The patterns of a list. -/
def globsOf (config configDir : Path) (covering : String) (d : Declared) :
    Except Fault (List (List Glob.Token)) :=
  d.names.mapM fun pattern =>
    let expanded := expandPattern configDir d.dir covering pattern
    match Glob.parse expanded with
    | .ok tokens => .ok tokens
    | .error cause => .error (.glob config expanded cause)

/-- The scope of a configuration. Without a list of files or patterns, everything below the
directory is included; installed packages are excluded by default. -/
def scopeOf (path dir : Path) (layer : Layer) : Except Fault Scope := do
  let files := (layer.files.map fun d => d.names.map fun f => (d.dir.join f).normalize).getD []
  let included : Option Declared :=
    match layer.included, layer.files with
    | some d, _ => some d
    | none, some _ => none
    | none, none => some ⟨["**/*"], dir⟩
  let included ←
    match included with
    | some d => (globsOf path dir "/**/*" d).map some
    | none => pure none
  let excluded ← globsOf path dir "/**"
    (layer.excluded.getD ⟨["node_modules", "bower_components", "jspm_packages"], dir⟩)
  return ⟨dir, files, included, excluded⟩

namespace Config

/-- Put a configuration together from its merged layers. -/
def assemble (path : Path) (layer : Layer) (json : Value) : Except Fault Config := do
  let dir := dirOf path
  let mappings :=
    match layer.mappings with
    | some (table, declaredIn) => mappingsOf table (layer.baseUrl.getD declaredIn)
    | none => []
  let scope ← scopeOf path dir layer
  return ⟨path, dir, layer.baseUrl, mappings, layer.compilerOptions, referencesOf json dir, scope⟩

/-- Read a configuration. -/
def load (t : Files.Tree) (path : Path) : Except Fault Config := do
  let path := path.normalize
  let (layer, json) ← loadLayer t [] path
  assemble path layer json

/-- Read a configuration from its text; what it extends is read from files. -/
def parse (t : Files.Tree) (content : String) (path : Path) : Except Fault Config := do
  let path := path.normalize
  let json ← parseText path content
  let layer ← layerOf t (loadLayer t [path]) json path
  assemble path layer json

/-- Whether names are mapped at all. -/
def hasMappings (c : Config) : Bool := !c.mappings.isEmpty || c.baseUrl.isSome

/-- A template with its first star replaced. -/
def fillFirstStar (value : List Char) : List Char → List Char
  | [] => []
  | c :: r => if c == '*' then value ++ r else c :: fillFirstStar value r

/-- The path that a substitution gives. -/
def expand (captured : List Char) (s : Substitution) : Path :=
  (s.base.join (String.ofList (fillFirstStar captured s.template.toList))).normalize

/-- What the wildcard of a mapping matches in a name. -/
def captured? (name : String) (m : Mapping) : Option (List Char) :=
  let cs := name.toList
  let front := m.front.toList
  let back := m.back.toList
  let rest := cs.drop front.length
  if front.isPrefixOf cs && back.isSuffixOf rest then some (rest.take (rest.length - back.length))
  else none

/-- The matching mapping with the longest text before its wildcard, the first one of several. -/
def bestMapping? (name : String) (ms : List Mapping) : Option (Mapping × List Char) :=
  ms.foldl (fun (best : Option (Mapping × List Char)) m =>
    match if m.hasWildcard then captured? name m else none with
    | none => best
    | some captured =>
      if best.all (fun b => b.1.front.utf8ByteSize < m.front.utf8ByteSize) then some (m, captured)
      else best) none

/-- The paths that a bare name may stand for, in order. A pattern without a wildcard comes before
all others, and only where no pattern matches does the base directory count. -/
def candidates (c : Config) (name : String) : List Path :=
  match c.mappings.find? fun m => !m.hasWildcard && m.pattern == name with
  | some m => m.substitutions.map (expand [])
  | none =>
    match bestMapping? name c.mappings with
    | some (m, captured) => m.substitutions.map (expand captured)
    | none =>
      match c.baseUrl with
      | some base =>
        if name.toList.head? == some '.' || name.toList.head? == some '/' then []
        else [(base.join name).normalize]
      | none => []

/-- Whether a file belongs to the project. -/
def includes (c : Config) (file : Path) : Bool :=
  let file := file.normalize
  if c.scope.files.any (·.same file) then true
  else
    match c.scope.included, file.below? c.scope.dir with
    | some included, some relative =>
      included.any (Glob.isMatch · relative.text) &&
        !c.scope.excluded.any (Glob.isMatch · relative.text)
    | _, _ => false

end Config

end ScriptModules.Project
