import ScriptModules.CommandLine.Run

/-!
# The program

The files that a command may look at are read first: all below the working directory, and above it
the configurations, the manifests and the installed packages. The rest is a pure function of them.
-/

namespace ScriptModules.Main

/-- Read what is in a directory, down to a depth. Links are not followed, and what cannot be read
is passed over. -/
def gather (depth : Nat) (way : List String) (found : Files.Tree) : IO Files.Tree := do
  match depth with
  | 0 => return found
  | depth + 1 =>
    let mut found := found.makeWay way
    let place ← IO.FS.realPath ("/" ++ "/".intercalate way)
    for entry in (← place.readDir) do
      let inside := way ++ [entry.fileName]
      let kind := (← entry.path.symlinkMetadata).type
      if kind == .dir then
        found ← (gather depth inside found <|> pure found)
      else if kind == .file then
        let read := do return found.put inside (.file (← IO.FS.readBinFile entry.path).toList)
        found ← (read <|> pure found)
    return found

/-- Read the files of one directory above the working directory, and the packages installed
there. -/
def gatherAbove (way : List String) (found : Files.Tree) : IO Files.Tree := do
  let mut found := found.makeWay way
  for name in ["tsconfig.json", "package.json"] do
    let place := "/" ++ "/".intercalate (way ++ [name])
    let read := do return found.put (way ++ [name]) (.file (← IO.FS.readBinFile place).toList)
    found ← (read <|> pure found)
  gather 64 (way ++ ["node_modules"]) found <|> pure found

end ScriptModules.Main

open ScriptModules

/-- Run the command that the arguments ask for on the files that are there. -/
def main (arguments : List String) : IO UInt32 := do
  let cwd := (← IO.currentDir).toString
  let way := (cwd.splitOn "/").filter (· != "")
  let mut found : Files.Tree := {}
  for n in List.range way.length do
    found ← Main.gatherAbove (way.take n) found
  found ← (Main.gather 64 way found <|> pure found)
  let environment : CommandLine.Environment := {
    config := ← IO.getEnv SessionOptions.configVariable
    hostVersion := ← IO.getEnv SessionOptions.versionVariable }
  let outcome := CommandLine.run found ⟨cwd⟩ environment arguments
  IO.print outcome.output
  IO.eprint outcome.errors
  return outcome.code.toUInt32
