import ScriptModules.Text.Split

/-!
# Arguments

The command line names a command. Options that concern every command may stand on either side of
its name; what stands after it wins, and an environment variable stands in for an option that is
not given.
-/

namespace ScriptModules.CommandLine

/-- How results are printed. -/
inductive Style where
  | text
  | json
  | compact
  deriving DecidableEq, Repr

/-- The style of a name. -/
def Style.ofName? : String → Option Style
  | "text" => some text
  | "json" => some json
  | "compact" => some compact
  | _ => none

/-- What is asked for. -/
inductive Command where
  | resolve (specifier : String) (importer : Option String) (conditions : List String)
  | load (specifier : String) (importer : Option String) (reportsDependencies : Bool)
  | config (place : Option String)
  deriving DecidableEq, Repr

/-- A command with the options that concern every command. -/
structure Invocation where
  command : Command
  style : Style := .text
  /-- The configuration to use in place of the nearest one. -/
  config : Option String := none
  /-- The version of the host as it is written. -/
  hostVersion : Option String := none
  deriving DecidableEq, Repr

/-- Why no command is run. -/
inductive Stop where
  | help
  | version
  | misuse
  deriving DecidableEq, Repr

/-- The environment variables that stand in for options. -/
structure Environment where
  config : Option String := none
  hostVersion : Option String := none
  deriving DecidableEq, Repr

/-- What an argument is by its spelling. -/
inductive Word where
  /-- Everything after this argument is taken as it stands. -/
  | rest
  | long (name : String) (value : Option String)
  | short (letters : List Char)
  | plain (text : String)
  deriving DecidableEq, Repr

/-- A long option, with the value after an equals sign if there is one. -/
private def longWord (cs : List Char) : Word :=
  let name := cs.takeWhile (· != '=')
  .long (String.ofList name)
    (if name.length < cs.length then some (String.ofList (cs.drop (name.length + 1))) else none)

/-- Read the spelling of an argument. A single dash is plain. -/
def Word.ofArgument (s : String) : Word :=
  match s.toList with
  | '-' :: '-' :: cs => if cs.isEmpty then .rest else longWord cs
  | '-' :: c :: cs => .short (c :: cs)
  | _ => .plain s

/-- The options. -/
inductive Opt where
  | format
  | config
  | hostVersion
  | verbose
  | logJson
  | help
  | version
  | importer
  | condition
  | reportDependencies
  deriving DecidableEq, Repr

namespace Opt

/-- The name of an option. -/
def name : Opt → String
  | format => "format"
  | config => "tsconfig"
  | hostVersion => "node-version"
  | verbose => "verbose"
  | logJson => "log-json"
  | help => "help"
  | version => "version"
  | importer => "from"
  | condition => "condition"
  | reportDependencies => "report-dependencies"

/-- The letter of an option. -/
def letter? : Opt → Option Char
  | verbose => some 'v'
  | help => some 'h'
  | version => some 'V'
  | _ => none

/-- Whether an option has a value. -/
def hasValue : Opt → Bool
  | format | config | hostVersion | importer | condition => true
  | verbose | logJson | help | version | reportDependencies => false

/-- Whether an option may be given more than once in one place. -/
def isRepeatable : Opt → Bool
  | verbose | condition => true
  | _ => false

/-- Whether a value suits an option: the path of a file is not empty. -/
def accepts (o : Opt) (value : String) : Bool :=
  match o with
  | format => (Style.ofName? value).isSome
  | config | importer => value != ""
  | _ => true

/-- The options that concern every command. -/
def shared : List Opt := [format, config, hostVersion, verbose, logJson, help]

end Opt

/-- What was given in one place: the options with their values, and the plain arguments. -/
structure Given where
  options : List (Opt × String) := []
  plain : List String := []
  deriving DecidableEq, Repr

namespace Given

/-- The value of an option. -/
def value? (o : Opt) (g : Given) : Option String := g.options.lookup o

/-- Whether an option is given. -/
def has (o : Opt) (g : Given) : Bool := (g.value? o).isSome

/-- The values of an option in the order they are given. -/
def values (o : Opt) (g : Given) : List String :=
  (g.options.filter (·.1 == o)).map (·.2)

/-- Take an option. Help and version are answered at once. -/
def add (o : Opt) (value : String) (g : Given) : Except Stop Given :=
  match o with
  | .help => .error .help
  | .version => .error .version
  | _ =>
    if !o.accepts value || (g.has o && !o.isRepeatable) then .error .misuse
    else .ok { g with options := g.options ++ [(o, value)] }

/-- Take options by their letters, none of which has a value. -/
def addLetters (known : List Opt) (g : Given) : List Char → Except Stop Given
  | [] => .ok g
  | c :: cs =>
    match known.find? (·.letter? == some c) with
    | some o => do addLetters known (← g.add o "") cs
    | none => .error .misuse

end Given

/-- Read one place of the command line, up to a plain argument unless those are taken too. A value
may stand after its option, but not if it looks like an option itself. -/
def readPlace (known : List Opt) (takesPlain : Bool) (g : Given) :
    List String → Except Stop (Given × List String)
  | [] => .ok (g, [])
  | argument :: rest =>
    match Word.ofArgument argument with
    | .plain text =>
      if takesPlain then readPlace known takesPlain { g with plain := g.plain ++ [text] } rest
      else .ok (g, argument :: rest)
    | .rest => if takesPlain then .ok ({ g with plain := g.plain ++ rest }, []) else .error .misuse
    | .short letters => do readPlace known takesPlain (← g.addLetters known letters) rest
    | .long name value =>
      match known.find? (·.name == name) with
      | none => .error .misuse
      | some o =>
        match o.hasValue, value with
        | false, some _ => .error .misuse
        | false, none => do readPlace known takesPlain (← g.add o "") rest
        | true, some v => do readPlace known takesPlain (← g.add o v) rest
        | true, none =>
          match rest with
          | [] => .error .misuse
          | next :: rest =>
            match Word.ofArgument next with
            | .plain v => do readPlace known takesPlain (← g.add o v) rest
            | _ => .error .misuse

/-- The names of commands, and the options that each has of its own. -/
def commandOptions? : String → Option (List Opt)
  | "resolve" => some [.importer, .condition]
  | "load" => some [.importer, .reportDependencies]
  | "config" => some [.importer]
  | _ => none

/-- Help is about the program, or about one command. -/
def isHelpTopic : List String → Bool
  | [] => true
  | [name] => name == "help" || (commandOptions? name).isSome
  | _ => false

/-- The command of a name, from what is given after it. -/
def commandOf? (name : String) (g : Given) : Option Command :=
  match name, g.plain with
  | "resolve", [specifier] =>
    some (.resolve specifier (g.value? .importer) (g.values .condition))
  | "load", [specifier] => some (.load specifier (g.value? .importer) (g.has .reportDependencies))
  | "config", [] => some (.config (g.value? .importer))
  | _, _ => none

/-- Whether the environment suits a place: a variable is looked at where its option is absent. -/
def suits (e : Environment) (g : Given) : Bool :=
  g.has .config || e.config.all (Opt.config.accepts ·)

/-- Read a command line. -/
def readArguments (e : Environment) (arguments : List String) : Except Stop Invocation := do
  let (before, rest) ← readPlace (.version :: Opt.shared) false {} arguments
  match rest with
  | [] => throw .misuse
  | name :: rest =>
    match commandOptions? name with
    | none => throw (if name == "help" && isHelpTopic rest then .help else .misuse)
    | some own =>
      let (after, _) ← readPlace (own ++ Opt.shared) true {} rest
      match commandOf? name after with
      | none => throw .misuse
      | some command =>
        if !suits e before || !suits e after then throw .misuse
        let shared (o : Opt) : Option String := (after.value? o).or (before.value? o)
        return {
          command := command
          style := ((shared .format).bind Style.ofName?).getD .text
          config := (shared .config).or e.config
          hostVersion := (shared .hostVersion).or e.hostVersion }

end ScriptModules.CommandLine
